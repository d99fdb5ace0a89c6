import Mathlib
import Ztsdb.Arr.ListDelete

/-!
# What a deletion leaves

Positions that the list has are removed one after the other, and the elements that were not
selected are left. The cursor of an index comes to all positions it lists; a negative index and
names are looked up in the list before anything is removed, positive positions are not.
-/

namespace Ztsdb.Arr.ListDelete

open Ztsdb.Lib Ztsdb.Lib.Outcome

/-! ## Removing all positions -/

section Others

variable {α : Type}

theorem others_append (ps : List Nat) (k : Nat) (xs ys : List α) :
    others ps k (xs ++ ys) = others ps k xs ++ others ps (k + xs.length) ys := by
  rw [others, List.zipIdx_append, List.filter_append, List.map_append]
  rfl

theorem others_cons_of_mem {ps : List Nat} {k : Nat} (h : k ∈ ps) (x : α) (xs : List α) :
    others ps k (x :: xs) = others ps (k + 1) xs := by
  rw [others, List.zipIdx_cons, List.filter_cons_of_neg (by simpa using h), others]

theorem others_congr {ps qs : List Nat} {k : Nat} {xs : List α}
    (h : ∀ p, k ≤ p → p < k + xs.length → (p ∈ ps ↔ p ∈ qs)) : others ps k xs = others qs k xs := by
  rw [others, others]
  congr 1
  refine List.filter_congr fun x hx => ?_
  obtain ⟨hle, hlt, -⟩ := List.mem_zipIdx hx
  rw [decide_eq_decide, h x.2 hle hlt]

theorem others_of_lt {ps : List Nat} {k : Nat} {xs : List α} (h : ∀ p ∈ ps, k + xs.length ≤ p) :
    others ps k xs = xs := by
  have hnil : others ps k xs = others [] k xs :=
    others_congr fun p _ hlt => iff_of_false (fun hp => absurd (h p hp) (by omega)) List.not_mem_nil
  rw [hnil, others]
  simp

/-- With the lowest position removed, the elements in front of it may count from one further on:
the remaining positions are all behind. -/
theorem others_eraseIdx {p k : Nat} {ps : List Nat} {xs : List α} (hp : k ≤ p)
    (hlt : p < k + xs.length) (hasc : ∀ q ∈ ps, p < q) :
    others ps (k + 1) (xs.eraseIdx (p - k)) = others (p :: ps) k xs := by
  have hin : p - k < xs.length := by omega
  have hlen : (xs.take (p - k)).length = p - k := by
    rw [List.length_take]
    omega
  have hsplit : xs = xs.take (p - k) ++ xs[p - k] :: xs.drop (p - k + 1) := by
    rw [← List.drop_eq_getElem_cons hin, List.take_append_drop]
  have hfront : others (p :: ps) k (xs.take (p - k)) = xs.take (p - k) := by
    refine others_of_lt fun q hq => ?_
    rcases List.mem_cons.mp hq with rfl | hq
    · omega
    · have := hasc q hq
      omega
  have hfront' : others ps (k + 1) (xs.take (p - k)) = xs.take (p - k) := by
    refine others_of_lt fun q hq => ?_
    have := hasc q hq
    omega
  have hback : others (p :: ps) (p + 1) (xs.drop (p - k + 1)) =
      others ps (p + 1) (xs.drop (p - k + 1)) :=
    others_congr fun q hq _ => by
      rw [List.mem_cons, or_iff_right (by omega)]
  calc others ps (k + 1) (xs.eraseIdx (p - k))
      = xs.take (p - k) ++ others ps (p + 1) (xs.drop (p - k + 1)) := by
        rw [List.eraseIdx_eq_take_drop_succ, others_append, hfront', hlen,
          show k + 1 + (p - k) = p + 1 by omega]
    _ = others (p :: ps) k (xs.take (p - k) ++ xs[p - k] :: xs.drop (p - k + 1)) := by
        rw [others_append, hfront, hlen, show k + (p - k) = p by omega,
          others_cons_of_mem List.mem_cons_self, hback]
    _ = others (p :: ps) k xs := by rw [← hsplit]

end Others

namespace VList

variable {T : Type} {l : VList T} {es : List (T × List UInt8)} {ps : List Nat}

/-- Positions that the list has are removed as they are listed. -/
theorem Stands.removeEach {n : Nat} (h : l.Stands es) (hasc : ps.Pairwise (· < ·))
    (hin : ∀ p ∈ ps, n ≤ p ∧ p < n + es.length) :
    ∃ l', l.removeEach ps n = .ok () l' ∧ l'.Stands (others ps n es) := by
  induction ps generalizing n l es with
  | nil =>
      refine ⟨l, rfl, ?_⟩
      rwa [others_of_lt fun p hp => absurd hp List.not_mem_nil]
  | cons p ps ih =>
      obtain ⟨hle, hlt⟩ := hin p List.mem_cons_self
      obtain ⟨hfirst, hasc⟩ := List.pairwise_cons.mp hasc
      have hne : es ≠ [] := List.ne_nil_of_length_pos (by omega)
      obtain ⟨l₁, hremove, h₁⟩ := h.remove hne (p - n)
      rw [Nat.min_eq_left (by omega)] at h₁
      have hlen : (es.eraseIdx (p - n)).length = es.length - 1 :=
        List.length_eraseIdx_of_lt (by omega)
      obtain ⟨l', hrun, h'⟩ := ih (n := n + 1) h₁ hasc fun q hq => by
        have hpq := hfirst q hq
        have hq' := (hin q (List.mem_cons_of_mem p hq)).2
        rw [hlen]
        omega
      rw [others_eraseIdx hle hlt hfirst] at h'
      exact ⟨l', by rw [VList.removeEach, hremove, bind_ok, hrun], h'⟩

/-- However the loop ends, no element has been added. -/
theorem Stands.removeEach_length (h : l.Stands es) (ps : List Nat) (n : Nat) :
    (l.removeEach ps n).Keeps fun l' => l'.v.length ≤ es.length := by
  induction ps generalizing n l es with
  | nil => exact keeps_ok h.length.le
  | cons p ps ih =>
      by_cases hne : es = []
      · subst hne
        obtain ⟨e, he⟩ := h.remove_nil (p - n)
        intro l' hl'
        rw [VList.removeEach, he, bind_throw] at hl'
        cases hl'
        exact h.length.le
      · obtain ⟨l₁, hremove, h₁⟩ := h.remove hne (p - n)
        intro l' hl'
        rw [VList.removeEach, hremove, bind_ok] at hl'
        exact (ih h₁ _ l' hl').trans (List.length_eraseIdx_le es _)

/-- Once an element is removed the list is not the same any more. -/
theorem Stands.removeEach_ne_throw {n : Nat} (h : l.Stands es) (hne : es ≠ []) (hps : ps ≠ [])
    (e : Exn) : l.removeEach ps n ≠ .throw e l := by
  obtain ⟨p, ps, rfl⟩ := List.exists_cons_of_ne_nil hps
  obtain ⟨l₁, hremove, h₁⟩ := h.remove hne (p - n)
  intro hthrow
  rw [VList.removeEach, hremove, bind_ok] at hthrow
  have hle := h₁.removeEach_length ps (n + 1) l (by rw [hthrow]; rfl)
  have hpos : 0 < es.length := List.length_pos_of_ne_nil hne
  rw [List.length_eraseIdx_of_lt (by omega), h.length] at hle
  omega

end VList

/-! ## The positions of an index -/

section MapM

variable {α β ε : Type}

theorem mapM_eq_ok {f : α → Except ε β} {g : α → β} {xs : List α} (h : ∀ x ∈ xs, f x = .ok (g x)) :
    xs.mapM f = .ok (xs.map g) := by
  induction xs with
  | nil => rfl
  | cons x xs ih =>
      rw [List.mapM_cons, h x List.mem_cons_self, ih fun y hy => h y (List.mem_cons_of_mem x hy)]
      rfl

theorem mapM_eq_error {f : α → Except ε β} {xs : List α} (h : ∃ x ∈ xs, ∃ e, f x = .error e) :
    ∃ e, xs.mapM f = .error e := by
  induction xs with
  | nil => exact absurd h (by simp)
  | cons x xs ih =>
      rw [List.mapM_cons]
      cases hx : f x with
      | error e => exact ⟨e, rfl⟩
      | ok y =>
          obtain ⟨z, hz, e, he⟩ := h
          rcases List.mem_cons.mp hz with rfl | hz
          · rw [hx] at he
            cases he
          · obtain ⟨e, he⟩ := ih ⟨z, hz, e, he⟩
            exact ⟨e, by rw [he]; rfl⟩

end MapM

theorem minus1_eq_ok {d : Int} (h : 0 < d) : minus1 d = .ok (d.toNat - 1) := by
  rw [minus1, if_neg (by omega), if_neg (by omega)]

theorem minus1_eq_error {d : Int} (h : d ≤ 0) : ∃ e, minus1 d = .error e := by
  rw [minus1]
  split
  · exact ⟨_, rfl⟩
  · exact ⟨_, if_pos (by omega)⟩

theorem negminus1_eq_ok {d : Int} (h : d < 0) : negminus1 d = .ok ((-d).toNat - 1) := by
  rw [negminus1, if_neg (by omega), if_neg (by omega)]

theorem negminus1_eq_error {d : Int} (h : 0 ≤ d) : ∃ e, negminus1 d = .error e := by
  rw [negminus1]
  split
  · exact ⟨_, rfl⟩
  · exact ⟨_, if_pos (by omega)⟩

namespace Idx

variable {idx : Idx} {i : Index}

theorem collect_of_remains (hnext : ∀ c, idx.getnext c = .ok (Indexing.getnext i c)) {e c : IdxPos}
    {l : List Nat} (h : Remains i e c l) (delidx : Finset Nat) :
    idx.collect l.length c delidx = .ok (delidx ∪ l.toFinset) := by
  induction l generalizing c delidx with
  | nil =>
      rw [List.length_nil, collect, List.toFinset_nil, Finset.union_empty]
  | cons x l ih =>
      obtain ⟨j, hget, hrem⟩ := h
      rw [List.length_cons, collect, hnext, hget]
      simp only
      rw [ih hrem, List.toFinset_cons, Finset.insert_union, Finset.union_insert]

/-- A cursor that goes over the positions collects them. -/
theorem positions_of_cycles (hfirst : ∀ c, idx.getfirst c = .ok (Indexing.getfirst i c))
    (hnext : ∀ c, idx.getnext c = .ok (Indexing.getnext i c)) {ps : List Nat} (h : Cycles i ps)
    (hsize : idx.size = ps.length) (hne : ps ≠ []) : idx.positions = .ok ps.toFinset := by
  obtain ⟨x, l, rfl⟩ := List.exists_cons_of_ne_nil hne
  obtain ⟨j, hget, hrem⟩ := h
  rw [positions, hfirst, hget, hsize, List.length_cons, Nat.add_sub_cancel]
  simp only
  rw [collect_of_remains hnext hrem, List.toFinset_cons, Finset.insert_eq]

theorem positions_int (idx : IntIndex) (hne : idx.vi ≠ []) :
    (int idx).positions = .ok idx.vi.toFinset :=
  positions_of_cycles (i := .int idx) (fun _ => rfl) (fun _ => rfl) idx.cycles rfl hne

theorem positions_intNeg (idx : IntIndexNeg) (hne : IntIndexNeg.others idx.sz 0 idx.vi ≠ []) :
    (intNeg idx).positions = .ok (IntIndexNeg.others idx.sz 0 idx.vi).toFinset :=
  positions_of_cycles (i := .intNeg idx) (fun _ => rfl) (fun _ => rfl) idx.cycles
    idx.length_positions.symm hne

section Name

variable {vs : List (List UInt8)} {d : NameRecord}

theorem collect_name (c : IdxPos) (delidx : Finset Nat) {rest : List (List UInt8)}
    (h : vs.drop (c.i + 1) = rest) :
    (name ⟨vs, d⟩).collect rest.length c delidx =
      (rest.mapM fun s => d.get s).map fun ps => delidx ∪ ps.toFinset := by
  induction rest generalizing c delidx with
  | nil => simp [collect, Except.map, pure, Except.pure]
  | cons s rest ih =>
      have hs : vs[c.i + 1]? = some s := by rw [← List.head?_drop, h, List.head?_cons]
      have hrest : vs.drop (c.i + 1 + 1) = rest := by
        rw [← List.drop_drop, h, List.drop_one, List.tail_cons]
      rw [List.length_cons, collect, getnext, NameIndex.getnext, hs, List.mapM_cons]
      cases hp : d.get s with
      | error e => simp only [hp]; rfl
      | ok p =>
          simp only [hp, Except.map]
          rw [ih ⟨p, c.i + 1⟩ _ hrest]
          cases rest.mapM fun s => d.get s with
          | error e => rfl
          | ok ps =>
              show Except.ok (insert p delidx ∪ ps.toFinset) = .ok (delidx ∪ (p :: ps).toFinset)
              rw [List.toFinset_cons, Finset.insert_union, Finset.union_insert]

theorem positions_name (hne : vs ≠ []) :
    (name ⟨vs, d⟩).positions = (vs.mapM fun s => d.get s).map List.toFinset := by
  obtain ⟨s, vs, rfl⟩ := List.exists_cons_of_ne_nil hne
  rw [positions, getfirst, NameIndex.getfirst, List.mapM_cons]
  cases hp : d.get s with
  | error e => simp only [hp]; rfl
  | ok p =>
      simp only [hp, Except.map, size, NameIndex.trueSize, List.length_cons, Nat.add_sub_cancel]
      rw [collect_name ⟨p, 0⟩ {p} (show (s :: vs).drop (0 + 1) = vs from rfl)]
      cases vs.mapM fun s => d.get s with
      | error e => rfl
      | ok ps =>
          show Except.ok ({p} ∪ ps.toFinset) = .ok (p :: ps).toFinset
          rw [List.toFinset_cons, Finset.insert_eq]

end Name

end Idx

/-! ## Indices that list what exists -/

theorem toOption_mapM {α β ε : Type} (f : α → Except ε β) (xs : List α) :
    (xs.mapM f).toOption = xs.mapM fun x => (f x).toOption := by
  induction xs with
  | nil => rfl
  | cons x xs ih =>
      rw [List.mapM_cons, List.mapM_cons, ← ih]
      cases f x with
      | error e => rfl
      | ok y =>
          cases xs.mapM f with
          | error e => rfl
          | ok ys => rfl

theorem mem_destutter' {l : List Nat} {a x : Nat} : x ∈ l.destutter' (· ≠ ·) a ↔ x ∈ a :: l := by
  induction l generalizing a with
  | nil => rw [List.destutter'_nil]
  | cons b l ih =>
      by_cases hab : a ≠ b
      · rw [List.destutter'_cons_pos l hab, List.mem_cons, ih, List.mem_cons (a := x) (b := a)]
      · obtain rfl := not_not.mp hab
        rw [List.destutter'_cons_neg l hab, ih, List.mem_cons, List.mem_cons, List.mem_cons,
          ← or_assoc, or_self]

/-- Sorting the listed positions and dropping repeated ones keeps what is listed. -/
theorem mem_ascending (sort : StdSort (Vector.less (T := Nat))) {vi : List Nat} {x : Nat} :
    x ∈ IntIndexNeg.ascending sort vi ↔ x ∈ vi := by
  rw [IntIndexNeg.ascending]
  split
  next =>
    rw [← (sort.perm vi).mem_iff]
    cases sort.run vi with
    | nil => rfl
    | cons a l => exact mem_destutter'
  next => rfl

section Selected

variable {T : Type} (sort : StdSort (Vector.less (T := Nat))) {l : VList T}

/-- What the positions of a negative index stand for. -/
theorem mem_others {ds : List Int} (hneg : ∀ d ∈ ds, 1 ≤ -d) {n p : Nat} :
    p ∈ IntIndexNeg.others n 0 (IntIndexNeg.ascending sort (ds.map fun d => (-d).toNat - 1)) ↔
      p ∈ (List.range n).filter fun p : Nat => -((p : Int) + 1) ∉ ds := by
  have hlisted : p ∈ IntIndexNeg.ascending sort (ds.map fun d => (-d).toNat - 1) ↔
      -((p : Int) + 1) ∈ ds := by
    rw [mem_ascending, List.mem_map]
    constructor
    · rintro ⟨d, hd, rfl⟩
      have hd1 := hneg d hd
      rwa [show -((((-d).toNat - 1 : Nat) : Int) + 1) = d by omega]
    · intro hmem
      exact ⟨_, hmem, by omega⟩
  rw [IntIndexNeg.others, List.mem_filter, List.mem_filter, List.mem_range'_1, List.mem_range,
    Nat.zero_add, and_iff_right (Nat.zero_le p), Bool.not_eq_true', List.contains_eq_mem,
    decide_eq_false_iff_not, decide_eq_true_eq, hlisted]

/-- The constructor for the positions to leave out looks whether the list has them. -/
theorem make_eq {ds : List Int} (hneg : ∀ d ∈ ds, 1 ≤ -d) {n : Nat} :
    (∀ d ∈ ds, -d ≤ n) ↔
      ∀ x ∈ IntIndexNeg.ascending sort (ds.map fun d => (-d).toNat - 1), x < n := by
  simp only [mem_ascending, List.forall_mem_map]
  refine forall₂_congr fun d hd => ?_
  have hd1 := hneg d hd
  omega

/-- The cursor of an index that lists positions or names which exist comes to all that it selects. -/
theorem positions_of_selected {a : Arg} {ps : List Nat}
    (h : selected l a = some ps) (hne : ps ≠ []) :
    ∃ delidx : Finset Nat, (convertToIndex sort l a).bind Idx.positions = .ok delidx ∧
      ∀ p, p ∈ delidx ↔ p ∈ ps := by
  cases a with
  | double ds =>
      cases ds with
      | nil => exact absurd (Option.some.inj h).symm hne
      | cons d ds =>
          rw [selected] at h
          rw [convertToIndex]
          by_cases hd : 0 ≤ d
          · rw [if_pos hd] at h ⊢
            obtain ⟨hall, hps⟩ := Option.ite_none_right_eq_some.mp h
            obtain rfl := Option.some.inj hps
            rw [mapM_eq_ok fun x hx => minus1_eq_ok (hall x hx).1]
            refine ⟨((d :: ds).map fun x => x.toNat - 1).toFinset, ?_, fun p => List.mem_toFinset⟩
            exact Idx.positions_int ⟨(d :: ds).map fun x => x.toNat - 1⟩ hne
          · rw [if_neg hd] at h ⊢
            obtain ⟨hall, hps⟩ := Option.ite_none_right_eq_some.mp h
            obtain rfl := Option.some.inj hps
            have hneg : ∀ x ∈ d :: ds, 1 ≤ -x := fun x hx => (hall x hx).1
            rw [mapM_eq_ok fun x hx => negminus1_eq_ok (by have := hneg x hx; omega)]
            have hlt := (make_eq sort hneg).mp fun x hx => (hall x hx).2
            refine ⟨_, ?_, fun p => List.mem_toFinset.trans (mem_others sort hneg)⟩
            simp only [Except.bind, IntIndexNeg.make, dif_pos hlt, Except.map]
            obtain ⟨p, hp⟩ := List.exists_mem_of_ne_nil _ hne
            exact Idx.positions_intNeg _ (List.ne_nil_of_mem ((mem_others sort hneg).mpr hp))
  | string vs =>
      have hvs : vs ≠ [] := by
        rintro rfl
        exact hne (Option.some.inj h).symm
      rw [selected, ← toOption_mapM] at h
      cases hget : vs.mapM fun s => l.names.get s with
      | error e =>
          rw [hget] at h
          cases h
      | ok qs =>
          rw [hget] at h
          obtain rfl := Option.some.inj h
          refine ⟨qs.toFinset, ?_, fun p => List.mem_toFinset⟩
          show (Idx.name ⟨vs, l.names⟩).positions = _
          rw [Idx.positions_name hvs, hget]
          rfl

/-- An index that lists what does not exist is rejected before the list is changed, or its
positions are collected as they are. -/
theorem positions_of_not_selected {a : Arg}
    (h : selected l a = none) :
    (a.Within l.v.length ∧ ∃ e, (convertToIndex sort l a).bind Idx.positions = .error e) ∨
      ∃ delidx : Finset Nat, delidx.Nonempty ∧
        (convertToIndex sort l a).bind Idx.positions = .ok delidx ∧
        (a.Within l.v.length ↔ l.v.length = 0) := by
  cases a with
  | double ds =>
      cases ds with
      | nil => cases h
      | cons d ds =>
          rw [selected] at h
          rw [convertToIndex]
          by_cases hd : 0 ≤ d
          · rw [if_pos hd] at h ⊢
            have hmiss : ¬ ∀ x ∈ d :: ds, 1 ≤ x ∧ x ≤ l.v.length := fun hall => by
              rw [if_pos hall] at h
              cases h
            by_cases hpos : ∃ x ∈ d :: ds, x ≤ 0
            · obtain ⟨x, hx, hx0⟩ := hpos
              obtain ⟨e, he⟩ := mapM_eq_error ⟨x, hx, minus1_eq_error hx0⟩
              exact .inl ⟨.inl ⟨x, hx, hx0⟩, e, by rw [he]; rfl⟩
            · have hall : ∀ x ∈ d :: ds, 0 < x := fun x hx => by
                by_contra hle
                exact hpos ⟨x, hx, by omega⟩
              refine .inr ⟨((d :: ds).map fun x => x.toNat - 1).toFinset,
                ⟨d.toNat - 1, List.mem_toFinset.mpr List.mem_cons_self⟩, ?_, ?_⟩
              · rw [mapM_eq_ok fun x hx => minus1_eq_ok (hall x hx)]
                exact Idx.positions_int ⟨_⟩ (List.cons_ne_nil _ _)
              · have hbehind : ¬ ∀ x ∈ d :: ds, x ≤ l.v.length := fun hle =>
                  hmiss fun x hx => ⟨hall x hx, hle x hx⟩
                rw [Arg.Within, or_iff_right hpos, or_iff_left hbehind]
          · rw [if_neg hd] at h ⊢
            have hmiss : ¬ ∀ x ∈ d :: ds, 1 ≤ -x ∧ -x ≤ l.v.length := fun hall => by
              rw [if_pos hall] at h
              cases h
            refine .inl ⟨.inl ⟨d, List.mem_cons_self, by omega⟩, ?_⟩
            by_cases hneg : ∀ x ∈ d :: ds, 1 ≤ -x
            · have hbehind : ¬ ∀ x ∈ d :: ds, -x ≤ l.v.length := fun hle =>
                hmiss fun x hx => ⟨hneg x hx, hle x hx⟩
              rw [make_eq sort hneg] at hbehind
              rw [mapM_eq_ok fun x hx => negminus1_eq_ok (by have := hneg x hx; omega)]
              simp only [Except.bind, IntIndexNeg.make, dif_neg hbehind, Except.map]
              exact ⟨_, rfl⟩
            · obtain ⟨x, hx, hx0⟩ := not_forall₂.mp hneg
              obtain ⟨e, he⟩ := mapM_eq_error ⟨x, hx, negminus1_eq_error (by omega)⟩
              exact ⟨e, by rw [he]; rfl⟩
  | string vs =>
      rw [selected, ← toOption_mapM] at h
      cases hget : vs.mapM fun s => l.names.get s with
      | ok qs =>
          rw [hget] at h
          cases h
      | error e =>
          have hvs : vs ≠ [] := by
            rintro rfl
            cases hget
          refine .inl ⟨trivial, e, ?_⟩
          show (Idx.name ⟨vs, l.names⟩).positions = _
          rw [Idx.positions_name hvs, hget]
          rfl

end Selected

/-! ## The deletion -/

theorem mem_of_mapM_eq_some {α β : Type} {f : α → Option β} {xs : List α} {ys : List β}
    (h : xs.mapM f = some ys) {y : β} (hy : y ∈ ys) : ∃ x ∈ xs, f x = some y := by
  induction xs generalizing ys with
  | nil =>
      cases h
      cases hy
  | cons x xs ih =>
      rw [List.mapM_cons] at h
      obtain ⟨z, hz, h⟩ := Option.bind_eq_some_iff.mp h
      obtain ⟨zs, hzs, h⟩ := Option.bind_eq_some_iff.mp h
      cases h
      rcases List.mem_cons.mp hy with rfl | hy
      · exact ⟨x, List.mem_cons_self, hz⟩
      · obtain ⟨w, hw, hfw⟩ := ih hzs hy
        exact ⟨w, List.mem_cons_of_mem x hw, hfw⟩

/-- Selected positions are positions of the list. -/
theorem selected_lt {T : Type} {l : VList T} (hl : l.Valid) {a : Arg} {ps : List Nat}
    (h : selected l a = some ps) {p : Nat} (hp : p ∈ ps) : p < l.v.length := by
  cases a with
  | double ds =>
      cases ds with
      | nil =>
          cases h
          cases hp
      | cons d ds =>
          rw [selected] at h
          split at h
          · obtain ⟨hall, hps⟩ := Option.ite_none_right_eq_some.mp h
            obtain rfl := Option.some.inj hps
            obtain ⟨x, hx, rfl⟩ := List.mem_map.mp hp
            have hx' := hall x hx
            omega
          · obtain ⟨-, hps⟩ := Option.ite_none_right_eq_some.mp h
            obtain rfl := Option.some.inj hps
            exact List.mem_range.mp (List.mem_of_mem_filter hp)
  | string vs =>
      obtain ⟨s, -, hs⟩ := mem_of_mapM_eq_some h hp
      have hget : l.names.get s = .ok p := by
        cases hget : l.names.get s with
        | error e =>
            rw [hget] at hs
            cases hs
        | ok q =>
            rw [hget] at hs
            cases hs
            rfl
      have hlt := hl.names.get_lt hget
      rw [← hl.sz]
      exact hlt.trans_le (hl.names.length_le_someNames.trans hl.names.length_someNames.le)

theorem within_of_selected {T : Type} {l : VList T} {a : Arg} {ps : List Nat}
    (h : selected l a = some ps) : a.Within l.v.length := by
  cases a with
  | string vs => trivial
  | double ds =>
      cases ds with
      | nil => exact .inr (.inr fun d hd => absurd hd List.not_mem_nil)
      | cons d ds =>
          rw [selected] at h
          split at h
          · obtain ⟨hall, -⟩ := Option.ite_none_right_eq_some.mp h
            exact .inr (.inr fun x hx => (hall x hx).2)
          next hd => exact .inl ⟨d, List.mem_cons_self, by omega⟩

section Deletion

variable {T : Type} (sort : StdSort (Vector.less (T := Nat))) {l : VList T} {a : Arg}

/-- Positions that the list has are deleted, in whatever order and how often they are listed. -/
theorem deletes_of_selected (hl : l.Valid) {ps : List Nat}
    (hsel : selected l a = some ps) (hne : ps ≠ []) :
    Deletes a l (subassignNull sort a l) := by
  have hstands := hl.stands
  obtain ⟨delidx, hpos, hmem⟩ := positions_of_selected sort hsel hne
  have hsort (p : Nat) : p ∈ delidx.sort ↔ p ∈ ps := by rw [Finset.mem_sort, hmem]
  have hlt : ∀ p ∈ delidx.sort, 0 ≤ p ∧ p < 0 + l.entries.length := by
    intro p hp
    rw [Nat.zero_add, ← hstands.length]
    exact ⟨Nat.zero_le p, selected_lt hl hsel ((hsort p).mp hp)⟩
  obtain ⟨l', hrun, h'⟩ := hstands.removeEach delidx.sortedLT_sort.pairwise hlt
  have hothers : others delidx.sort 0 l.entries = others ps 0 l.entries :=
    others_congr fun p _ _ => hsort p
  rw [Deletes, subassignNull, hsel, hpos]
  exact ⟨l', hrun, h'.valid, h'.entries.trans hothers⟩

/-- An index that lists what does not exist changes nothing, unless an element was removed before
or instead. -/
theorem deletes_iff_of_not_selected (hl : l.Valid)
    (hsel : selected l a = none) :
    Deletes a l (subassignNull sort a l) ↔ a.Within l.v.length := by
  have hstands := hl.stands
  have hlen : l.entries.length = l.v.length := hstands.length.symm
  rw [Deletes, subassignNull, hsel]
  rcases positions_of_not_selected sort hsel with ⟨hin, e, he⟩ | ⟨delidx, hdel, hpos, hin⟩
  · rw [he]
    exact iff_of_true ⟨e, rfl⟩ hin
  · rw [hpos, hin]
    have hps : delidx.sort ≠ [] := by
      obtain ⟨p, hp⟩ := hdel
      exact List.ne_nil_of_mem ((Finset.mem_sort _).mpr hp)
    by_cases h0 : l.v.length = 0
    · refine iff_of_true ?_ h0
      have hnil : l.entries = [] := List.eq_nil_of_length_eq_zero (hlen.trans h0)
      rw [hnil] at hstands
      obtain ⟨p, ps, hcons⟩ := List.exists_cons_of_ne_nil hps
      obtain ⟨e, he⟩ := hstands.remove_nil (p - 0)
      exact ⟨e, by simp only [hcons, VList.removeEach, he, bind_throw]⟩
    · refine iff_of_false ?_ h0
      rintro ⟨e, he⟩
      have hne : l.entries ≠ [] := fun hnil => h0 (by rw [← hlen, hnil, List.length_nil])
      exact hstands.removeEach_ne_throw hne hps e he

/-- An index that selects positions deletes exactly these elements, and one that lists what does
not exist changes nothing, exactly when no positive position lies behind the end of a list that
is not empty. -/
theorem deletes_iff (hl : l.Valid) (hsome : selected l a ≠ some []) :
    Deletes a l (subassignNull sort a l) ↔ a.Within l.v.length := by
  cases hsel : selected l a with
  | none => exact deletes_iff_of_not_selected sort hl hsel
  | some ps =>
      have hne : ps ≠ [] := fun h0 => hsome (h0 ▸ hsel)
      exact iff_of_true (deletes_of_selected sort hl hsel hne) (within_of_selected hsel)

end Deletion

/-- Three elements, two of them with the same name. -/
def three : VList Nat :=
  ⟨[1, 2, 3], NameRecord.rebuild 3 [ZString.ofString [97], ZString.empty, ZString.ofString [97]]⟩

theorem three_valid : three.Valid where
  names := (NameRecord.rebuild_inv (show _ ∨ _ = 3 from .inr rfl)).fits
  sz := rfl
  short := by
    have htexts : texts three.names = [[97], [], [97]] := texts_rebuild rfl
    rw [htexts]
    decide

/-- Positions out of order, and one of them twice. -/
theorem deletes_iff_three :
    Deletes (.double [3, 1, 3]) three (subassignNull (mergeStdSort _) (.double [3, 1, 3]) three) :=
  (deletes_iff (mergeStdSort _) three_valid (by
    rw [show selected three (.double [3, 1, 3]) = some [2, 0, 2] from rfl]
    decide)).mpr (.inr (.inr (by decide)))

/-- A position behind the end takes the last element away. -/
theorem not_deletes_behind : ¬ ∀ (l : VList Nat) (a : Arg), l.Valid →
    selected l a ≠ some [] →
    Deletes a l (subassignNull (mergeStdSort _) a l) := by
  intro h
  have hsel : selected three (.double [5]) = none := rfl
  have hdel := h three (.double [5]) three_valid (by rw [hsel]; exact nofun)
  rw [deletes_iff_of_not_selected _ three_valid hsel] at hdel
  rcases hdel with hle | h0 | hin
  · exact absurd hle (by decide)
  · cases h0
  · exact absurd hin (by decide)

end Ztsdb.Arr.ListDelete
