import Mathlib
import Ztsdb.Arr.ArrayAppend
import Ztsdb.Lib.Loop

/-!
# `Vector::insert`

A range is inserted at a position: the vector is resized, the elements from the position on are
shifted by an iterator that comes down from the end, and the range is written. The iterators are
not checked, and each of them that is dereferenced clears the flag.

The shift begins at `end()`, one place behind the last element, and is not made at all when the
position is at the last element.
-/

namespace Ztsdb.Arr

open Ztsdb.Lib

namespace Vector

variable {T : Type} (O : T → T → Bool)

/-- `*iter` at place `i`: dereferencing clears the flag. -/
def readIter (i : Nat) (s : Vector T) : Outcome Exn (Vector T) T :=
  match s.v[i]? with
  | some x => .ok x { s with ordered := false }
  | none => .fault

/-- `*iter = *(iter - diff)` -/
def shiftTo (diff iter : Nat) (s : Vector T) : Outcome Exn (Vector T) Unit :=
  (readIter (wsub iter diff) s).bind fun x s => writeIter iter x s

/-- `ordered &= O()(*(position-1), *position)` -/
def checkOrder (position : Nat) (ordered : Bool) (s : Vector T) : Outcome Exn (Vector T) Bool :=
  (readIter (position - 1) s).bind fun a s => (readIter position s).bind fun b s =>
    .ok (ordered && O a b) s

/-- The elements of the range after the first, with the position and the flag so far. -/
def insertRest : List T → Nat → Bool → Vector T → Outcome Exn (Vector T) (Nat × Bool)
  | [], position, ordered, s => .ok (position, ordered) s
  | x :: xs, position, ordered, s =>
    (writeIter position x s).bind fun _ s =>
      (if s.ordered then
          (readIter (position - 1) s).bind fun a s => (readIter position s).bind fun b s =>
            .ok (if !O a b then false else ordered) s
        else .ok ordered s).bind fun ordered s => insertRest xs (position + 1) ordered s

/-- `insert(position, first, last)`; the result is the position behind the range. -/
def insert [Raw T] (position : Nat) : List T → Vector T → Outcome Exn (Vector T) Nat
  | [], s => .ok position s
  | x :: xs, s =>
    (s.resize (wrap (s.size + (x :: xs).length)) 0).bind fun _ t =>
      (if s.size ≠ 0 ∧ 0 < (s.size : Int) - 1 - position then
          forDown (shiftTo (x :: xs).length) (position + 1) t.size t
        else .ok () t).bind fun _ t =>
      (writeIter position x t).bind fun _ t =>
      (if position ≠ 0 then checkOrder O position s.ordered t else .ok s.ordered t).bind
        fun ordered t =>
      (insertRest O xs (position + 1) ordered t).bind fun r t =>
      (if r.1 ≠ t.size then checkOrder O r.1 r.2 t else .ok r.2 t).bind fun ordered t =>
      .ok r.1 { t with ordered := ordered }

/-! ## The writes -/

variable {O}

theorem checkOrder_append {l l' : List T} {s : Vector T} {ordered : Bool} (hv : s.v = l ++ l')
    (hl : l ≠ []) (hl' : l' ≠ []) :
    checkOrder O l.length ordered s = .ok (ordered && seam O l l') { s with ordered := false } := by
  obtain ⟨b, ys, rfl⟩ := List.exists_cons_of_ne_nil hl'
  obtain ⟨zs, a, rfl⟩ : ∃ zs a, l = zs ++ [a] := ⟨_, _, (List.dropLast_concat_getLast hl).symm⟩
  have ha : s.v[(zs ++ [a]).length - 1]? = some a := by
    rw [hv, List.length_append, List.length_singleton, Nat.add_sub_cancel, List.append_assoc,
      List.getElem?_append_right le_rfl, Nat.sub_self]
    rfl
  have hb : s.v[(zs ++ [a]).length]? = some b := by
    rw [hv, List.getElem?_append_right le_rfl, Nat.sub_self]
    rfl
  have hseam : seam O (zs ++ [a]) (b :: ys) = O a b := by
    rw [seam, List.head?_cons, List.length_append, List.length_singleton]
    exact before_succ (List.getElem?_concat_length ..)
  rw [checkOrder, readIter, ha]
  simp only [Outcome.bind_ok]
  rw [readIter]
  simp only [hb, Outcome.bind_ok, hseam]

/-- The order is looked at where there is something on both sides. -/
theorem checkOrder_seam {l l' : List T} {s : Vector T} {ordered : Bool} {c : Prop} [Decidable c]
    (hv : s.v = l ++ l') (hs : s.ordered = false) (hc : c ↔ l ≠ [] ∧ l' ≠ []) :
    (if c then checkOrder O l.length ordered s else .ok ordered s) =
      .ok (ordered && seam O l l') s := by
  by_cases h : c
  · obtain ⟨hl, hl'⟩ := hc.1 h
    rw [if_pos h, checkOrder_append hv hl hl', ← hs]
  · have hseam : seam O l l' = true := by
      by_cases hl : l = []
      · rw [hl]
        cases l' <;> rfl
      · rw [show l' = [] from not_not.1 fun hl' => h (hc.2 ⟨hl, hl'⟩)]
        rfl
    rw [if_neg h, hseam, Bool.and_true]

theorem writeIter_append {l l' : List T} {x y : T} {s : Vector T} (hv : s.v = l ++ y :: l') :
    writeIter l.length x s = .ok () { s with v := l ++ x :: l', ordered := false } := by
  rw [writeIter, if_pos (by rw [size, hv, List.length_append, List.length_cons]; omega), hv,
    List.set_append_right _ _ le_rfl, Nat.sub_self, List.set_cons_zero]

/-- The flag is false by then, so the order inside the range is not looked at. -/
theorem insertRest_append {l l' mid xs : List T} {s : Vector T} {ordered : Bool}
    (hv : s.v = l ++ (mid ++ l')) (hmid : mid.length = xs.length) (hs : s.ordered = false) :
    insertRest O xs l.length ordered s =
      .ok (l.length + xs.length, ordered) { s with v := l ++ (xs ++ l'), ordered := false } := by
  induction xs generalizing l mid s with
  | nil =>
      rw [List.length_eq_zero_iff.1 hmid] at hv
      rw [insertRest, ← hv, ← hs]
      rfl
  | cons x xs ih =>
      obtain ⟨y, mid, rfl⟩ := List.exists_cons_of_length_eq_add_one hmid
      rw [List.cons_append] at hv
      rw [insertRest, writeIter_append hv, Outcome.bind_ok]
      simp only [Bool.false_eq_true, if_false, Outcome.bind_ok]
      have hv' : ({ s with v := l ++ x :: (mid ++ l'), ordered := false } : Vector T).v =
          (l ++ [x]) ++ (mid ++ l') := by
        rw [List.append_assoc]
        rfl
      have hnext := ih hv' (Nat.succ.inj hmid) rfl
      rw [List.length_append, List.length_singleton] at hnext
      rw [hnext, List.length_cons, List.append_assoc]
      simp only [Nat.add_assoc, Nat.add_comm 1, List.nil_append, List.cons_append]

theorem adjacent_append {l l' : List T} : adjacent O (l ++ l') = true ↔
    adjacent O l = true ∧ adjacent O l' = true ∧ seam O l l' = true := by
  rw [adjacent_iff, adjacent_iff, adjacent_iff, isChain_append_seam]

/-! ## The whole range -/

variable [Raw T] {s : Vector T} {a : Allocator} {position : Nat} {xs : List T}

/-- What is asked: the range between the elements before the position and those from it on, and a
flag that is not wrong. -/
def Inserts (O : T → T → Bool) (position : Nat) (xs : List T) (s : Vector T) : Prop :=
  ∃ p s', s.insert O position xs = .ok p s' ∧
    s'.v = s.v.take position ++ (xs ++ s.v.drop position) ∧
      (s'.ordered = true → adjacent O s'.v = true)

/-- The resize has room. -/
theorem resize_of_room (hroom : s.HasRoom (s.size + xs.length)) (hne : xs ≠ [])
    (ha : s.alloc = some a) :
    s.resize (wrap (s.size + xs.length)) 0 = .ok () (s.grown a (s.size + xs.length)) := by
  obtain ⟨a', ha', hg⟩ := hroom.granted
  obtain rfl : a = a' := Option.some.inj (ha.symm.trans ha')
  have hcap := le_growCapacity_of_fits hroom.small
  have hle := Nat.le_mul_of_pos_right (growCapacity (s.size + xs.length))
    (Flat.width_pos (T := T))
  have hsmall := hroom.small
  have hpos := List.length_pos_iff.2 hne
  rw [wrap_of_lt (by omega), resize_zero_granted (by omega) ha hg,
    if_pos (by rw [memsize_of_lt hsmall]; omega)]

/-- The place behind the resized elements is the first one that the shift touches. -/
theorem insert_shift (hroom : s.HasRoom (s.size + xs.length)) (hne : xs ≠ [])
    (ha : s.alloc = some a) (hpos : position + 1 < s.size) : s.insert O position xs = .fault := by
  obtain ⟨x, xs, rfl⟩ := List.exists_cons_of_ne_nil hne
  have hfirst : shiftTo (x :: xs).length (s.size + (x :: xs).length)
      (s.grown a (s.size + (x :: xs).length)) = .fault := by
    rw [shiftTo, readIter]
    split
    · rw [Outcome.bind_ok, writeIter, if_neg]
      exact Nat.not_lt.2 (size_grown a _ s).le
    · rfl
  rw [insert, resize_of_room hroom hne ha, Outcome.bind_ok, if_pos ⟨by omega, by omega⟩,
    size_grown, forDown_first (by omega) (by omega), hfirst]
  rfl

/-- What stands in the last `k` of `n` places that nobody wrote. -/
def leftover (a : Allocator) (n k : Nat) : List T := (List.range' (n - k) k).map (a.uninit T)

/-- The resized elements: the place for the range, which the elements from the position on are
lost in. -/
theorem grown_split {l l' : List T} (hv : s.v = l ++ l') (hle : l'.length ≤ xs.length) :
    ∃ mid, mid.length = xs.length ∧ (s.grown a (s.size + xs.length)).v =
      l ++ (mid ++ leftover a (s.size + xs.length) l'.length) := by
  refine ⟨l' ++ (List.range' s.size (xs.length - l'.length)).map (a.uninit T), ?_, ?_⟩
  · rw [List.length_append, List.length_map, List.length_range']
    omega
  · have hrange := List.range'_append_1 (s := s.size) (m := xs.length - l'.length) (n := l'.length)
    rw [show xs.length - l'.length + l'.length = xs.length by omega,
      show s.size + (xs.length - l'.length) = s.size + xs.length - l'.length by omega] at hrange
    rw [grown, redim, List.take_of_length_le (by rw [size]; omega)]
    simp only
    rw [show s.size + xs.length - s.v.length = xs.length by rw [size]; omega,
      show s.v.length = s.size from rfl, ← hrange, List.map_append, hv, leftover]
    simp only [List.append_assoc]

/-- At the last element or behind it there is no shift. -/
theorem insert_eq {l l' : List T} (hroom : s.HasRoom (s.size + xs.length)) (hne : xs ≠ [])
    (ha : s.alloc = some a) (hv : s.v = l ++ l') (hl' : l'.length ≤ 1) :
    ∃ s', s.insert O l.length xs = .ok (l.length + xs.length) s' ∧
      s'.v = l ++ (xs ++ leftover a (s.size + xs.length) l'.length) ∧
        s'.ordered = (s.ordered && seam O l xs &&
          seam O (l ++ xs) (leftover a (s.size + xs.length) l'.length)) := by
  have hlen := List.length_pos_iff.2 hne
  have hsize : s.size = l.length + l'.length := by rw [size, hv, List.length_append]
  obtain ⟨mid, hmid, hgrown⟩ := @grown_split T _ s a xs l l' hv (by omega)
  have hresize := resize_of_room hroom hne ha
  obtain ⟨x, xs, rfl⟩ := List.exists_cons_of_ne_nil hne
  obtain ⟨y, mid, rfl⟩ := List.exists_cons_of_length_eq_add_one hmid
  generalize hrest : (leftover a (s.size + (x :: xs).length) l'.length : List T) = rest at *
  have hrestlen : rest.length = l'.length := by
    rw [← hrest, leftover, List.length_map, List.length_range']
  rw [List.cons_append] at hgrown
  rw [insert, hresize, Outcome.bind_ok, if_neg (by omega), Outcome.bind_ok,
    writeIter_append hgrown, Outcome.bind_ok]
  -- the order before the range
  have hbefore : ∀ t : Vector T, t.v = l ++ x :: (mid ++ rest) → t.ordered = false →
      (if l.length ≠ 0 then checkOrder O l.length s.ordered t else .ok s.ordered t) =
        .ok (s.ordered && seam O l (x :: xs)) t := by
    intro t ht hflag
    have hsame : seam O l (x :: xs) = seam O l (x :: (mid ++ rest)) := rfl
    rw [hsame]
    exact checkOrder_seam ht hflag (by simp)
  rw [hbefore _ rfl rfl, Outcome.bind_ok]
  have hv' : ({ s.grown a (s.size + (x :: xs).length) with
      v := l ++ x :: (mid ++ rest)
      ordered := false } : Vector T).v = (l ++ [x]) ++ (mid ++ rest) := by
    rw [List.append_assoc]
    rfl
  have hrun := @insertRest_append _ O _ _ _ xs _ (s.ordered && seam O l (x :: xs)) hv'
    (Nat.succ.inj hmid) rfl
  rw [List.length_append, List.length_singleton] at hrun
  rw [hrun, Outcome.bind_ok]
  -- the order behind it
  have hafter : ∀ (t : Vector T) (ordered : Bool), t.v = l ++ (x :: xs) ++ rest →
      t.ordered = false →
      (if l.length + 1 + xs.length ≠ t.size then checkOrder O (l.length + 1 + xs.length) ordered t
        else .ok ordered t) = .ok (ordered && seam O (l ++ (x :: xs)) rest) t := by
    intro t ordered ht hflag
    have htotal : (l ++ (x :: xs)).length = l.length + 1 + xs.length := by
      rw [List.length_append, List.length_cons]
      omega
    rw [← htotal]
    refine checkOrder_seam ht hflag ?_
    have hsum : (l ++ (x :: xs) ++ rest).length = (l ++ (x :: xs)).length + rest.length :=
      List.length_append
    have hne : l ++ (x :: xs) ≠ [] := by simp
    rw [and_iff_right hne, ← List.length_pos_iff, size, ht, hsum]
    omega
  rw [hafter _ _ (by simp) rfl, Outcome.bind_ok]
  refine ⟨{ s.grown a (s.size + (x :: xs).length) with
    v := l ++ [x] ++ (xs ++ rest)
    ordered := s.ordered && seam O l (x :: xs) && seam O (l ++ (x :: xs)) rest }, ?_, ?_, rfl⟩
  · congr 1
    rw [List.length_cons]
    omega
  · simp

/-- The range is inserted as asked behind the elements, or before the last one if the storage that
nobody wrote happens to hold it; and the flag is right unless it was true and the range, or the
elements before or behind it, do not ascend. -/
theorem inserts_iff (hroom : s.HasRoom (s.size + xs.length)) (ha : s.alloc = some a) (hne : xs ≠ [])
    (hpos : position ≤ s.size) :
    s.Inserts O position xs ↔
      (position = s.size ∨
        position + 1 = s.size ∧ s.v[position]? = some (a.uninit T (s.size + xs.length - 1))) ∧
      (s.ordered = true → seam O (s.v.take position) xs = true →
        seam O (s.v.take position ++ xs) (s.v.drop position) = true →
          adjacent O (s.v.take position) = true ∧ adjacent O xs = true ∧
            adjacent O (s.v.drop position) = true) := by
  by_cases hshift : position + 1 < s.size
  · refine iff_of_false ?_ fun h => by omega
    intro ⟨p, s', hrun, _⟩
    rw [insert_shift hroom hne ha hshift] at hrun
    cases hrun
  have hv : s.v = s.v.take position ++ s.v.drop position := (List.take_append_drop ..).symm
  have hlen : (s.v.take position).length = position := List.length_take_of_le hpos
  have hdrop : (s.v.drop position).length = s.size - position := List.length_drop
  obtain ⟨s', hrun, hv', hord⟩ := insert_eq (O := O) hroom hne ha hv (by omega)
  rw [hlen] at hrun
  have hleft : (leftover a (s.size + xs.length) (s.v.drop position).length : List T) =
      s.v.drop position ↔ (position = s.size ∨
        position + 1 = s.size ∧ s.v[position]? = some (a.uninit T (s.size + xs.length - 1))) := by
    rw [hdrop]
    rcases Nat.lt_or_eq_of_le hpos with hlt | heq
    · obtain hlast : s.size = position + 1 := by omega
      have hget := List.drop_eq_getElem_cons (l := s.v) (i := position) hlt
      have hnil : s.v.drop (position + 1) = [] := List.drop_eq_nil_of_le (by rw [← hlast]; rfl)
      rw [hget, hnil, hlast, Nat.add_sub_cancel_left, leftover, List.range'_one, List.map_singleton,
        List.cons.injEq, List.getElem?_eq_getElem hlt, Option.some.injEq]
      exact ⟨fun h => .inr ⟨rfl, h.1.symm⟩, fun h => ⟨(h.resolve_left (by omega)).2.symm, rfl⟩⟩
    · subst heq
      rw [Nat.sub_self, List.drop_eq_nil_of_le (by rfl)]
      exact iff_of_true rfl (.inl rfl)
  rw [← hleft]
  constructor
  · intro ⟨p, t, ht, htv, htord⟩
    rw [hrun] at ht
    cases ht
    have hleft' := List.append_cancel_left (List.append_cancel_left (hv'.symm.trans htv))
    refine ⟨hleft', fun hflag hbefore hafter => ?_⟩
    rw [hleft', hflag, hbefore, hafter] at hord
    have hasc := htord hord
    rw [htv, ← List.append_assoc, adjacent_append, adjacent_append] at hasc
    exact ⟨hasc.1.1, hasc.1.2.1, hasc.2.1⟩
  · intro ⟨hleft', hflag⟩
    rw [hleft'] at hv' hord
    refine ⟨_, s', hrun, hv', fun hs' => ?_⟩
    rw [hord, Bool.and_eq_true, Bool.and_eq_true] at hs'
    obtain ⟨hl, hxs, hl'⟩ := hflag hs'.1.1 hs'.1.2 hs'.2
    rw [hv', ← List.append_assoc, adjacent_append, adjacent_append]
    exact ⟨⟨hl, hxs, hs'.1.2⟩, hl', hs'.2⟩

end Vector

theorem hasRoom_columnOf {l : List idx_type} {n : Nat} (hl : l.length + n < 512) :
    (columnOf lessIdx l).HasRoom ((columnOf lessIdx l).size + n) := by
  have hrows : (vectorOf lessIdx l).nrows = l.length := by
    show (UInt64.ofNat l.length).toNat = l.length
    rw [UInt64.toNat_ofNat', Nat.mod_eq_of_lt (by omega)]
  have hroom := (hasRoom_vectorOf lessIdx hl (by decide) (by omega)).1 _ (List.mem_singleton.2 rfl)
  rw [hrows] at hroom
  exact hroom

/-- At the end. -/
theorem inserts_iff_end : (columnOf lessIdx [1, 2]).Inserts lessIdx 2 [4, 5] :=
  (Vector.inserts_iff (hasRoom_columnOf (by decide)) rfl (List.cons_ne_nil _ _) (by decide)).2
    ⟨.inl rfl, fun _ _ _ => by decide⟩

/-- At the beginning of two elements. -/
theorem not_inserts : ¬ (columnOf lessIdx [1, 2]).Inserts lessIdx 0 [7] := by
  intro ⟨p, s', hrun, _⟩
  rw [Vector.insert_shift (hasRoom_columnOf (by decide)) (List.cons_ne_nil _ _) rfl (by decide)]
    at hrun
  cases hrun

end Ztsdb.Arr
