import Mathlib
import Ztsdb.Lang.DblAssignPath
import Ztsdb.Lib.Writes

/-!
# What an assignment through a path should do

With each name looked up in its own list, a path leads to an element, to a position of a vector,
to a name that is missing, or nowhere; `effect` is what should become of the list then. `Agree`
is when the assignment has that effect. Changes at two places are told apart here, and `remove`
is what removing an element should be.
-/

namespace Ztsdb.Lang.DblAssign

open Ztsdb.Lib Ztsdb.Lib.Outcome Value

variable {K : Type} {El : K → Type} (convert : (k k' : K) → El k' → Option (El k))

/-! ## What the assignment should make of the list -/

/-- A position of a vector, set to the one element of `b`. -/
def fitted : Value K El → Value K El → Nat → Option (Value K El)
  | atom k v, atom k' [y], p =>
    if p < v.length then (convert k k' y).map fun z => atom k (v.set p z) else none
  | _, _, _ => none

/-- A list without the element at `q`. -/
def Value.erase (x : Value K El) (q : List Nat) : Value K El :=
  match x.get? q.dropLast, q.getLast? with
  | some (list v names), some n =>
    x.put q.dropLast (list (v.eraseIdx n) (someNames (names.eraseIdx n)))
  | _, _ => x

/-- What becomes of `x` where a path leads: nothing at all when there is nothing to assign to. -/
def effect (x b : Value K El) : Target → Option (Value K El)
  | .element q => some (if b.isNull then x.erase q else x.put q b)
  | .position q p => (x.get? q).bind fun leaf => (fitted convert leaf b p).map fun y => x.put q y
  | .fresh q s =>
    match x.get? q with
    | some (list v names) => some (x.put q (list (v ++ [b]) (addName v.length s names)))
    | _ => none
  | .nowhere => none
  | .outside => none

/-- The effect, or an exception and no effect. -/
def Meets (x : Value K El) (o : Outcome Exn (Value K El) Unit) : Option (Value K El) → Prop
  | some y => o = .ok () y
  | none => ∃ e, o = .throw e x

/-- When the assignment is as it should be, by where the path leads: with each name looked up in
its own list, and with all names looked up in the outermost one. -/
def Agree (x b : Value K El) (i : Index) : Target → Target → Prop
  | .element q, .element q' =>
    if b.isNull then q.length = 1 else q = q' ∨ x.get? q = some b ∧ x.get? q' = some b
  | .element q, .position q' p =>
    x.get? q = some b ∧ x.get? q' = some b ∧ (fitted convert b b p).isSome
  | .position q p, _ => ∀ leaf, x.get? q = some leaf → (fitted convert leaf b p).isSome →
    ∃ k y z, leaf = atom k [y] ∧ b = atom k [z]
  | .fresh q s, .fresh q' s' => q = q' ∧ s = s'
  | .nowhere, .nowhere => True
  | .nowhere, .position q p => ∀ leaf, x.get? q = some leaf →
    fitted convert leaf b p = none ∧ lastName i p leaf ≠ .outside
  | _, _ => False

theorem subassignHelper_eq (leaf b : Value K El) (p : Nat) :
    fitted convert leaf b p = (subassignHelper convert leaf b p).toOption := by
  cases leaf with
  | null => rfl
  | list v names => rfl
  | atom k v =>
      cases b with
      | null => rfl
      | list w names => rfl
      | atom k' w =>
          match w with
          | [] => rfl
          | y :: y' :: w =>
              have hlen : 1 < (y :: y' :: w).length := by simp
              rw [subassignHelper, if_pos hlen]
              rfl
          | [y] =>
              have hlen : ¬1 < [y].length := by simp
              rw [subassignHelper, if_neg hlen, fitted, List.getElem?_cons_zero]
              simp only
              cases convert k k' y with
              | none => split <;> rfl
              | some z => split <;> rfl

/-! ## Changes at two places -/

namespace Value

theorem put_self {x y : Value K El} {q : List Nat} (h : x.get? q = some y) : x.put q y = x := by
  induction q generalizing x with
  | nil => exact (Option.some.inj h).symm
  | cons n q ih =>
      cases x with
      | list v names =>
          obtain ⟨w, hw, hy⟩ := Option.bind_eq_some_iff.mp h
          obtain ⟨hn, rfl⟩ := List.getElem?_eq_some_iff.mp hw
          simp only [put, hw]
          rw [ih hy, List.set_getElem_self]
      | null => cases h
      | atom k v => cases h

/-- What is neither on the way to a change nor behind it stays. -/
theorem get?_put_other {x y : Value K El} {q q' : List Nat} (h : ¬q <+: q') (h' : ¬q' <+: q) :
    (x.put q y).get? q' = x.get? q' := by
  induction q generalizing x q' with
  | nil => exact absurd List.nil_prefix h
  | cons n q ih =>
      cases q' with
      | nil => exact absurd List.nil_prefix h'
      | cons n' q' =>
          cases x with
          | null => rfl
          | atom k v => rfl
          | list v names =>
              rw [put]
              cases hn : v[n]? with
              | none => rfl
              | some w =>
                  simp only [get?]
                  by_cases hnn : n = n'
                  · subst hnn
                    rw [List.getElem?_set_self (List.getElem?_eq_some_iff.mp hn).1, hn]
                    exact ih (fun hq => h (List.cons_prefix_cons.mpr ⟨rfl, hq⟩))
                      fun hq => h' (List.cons_prefix_cons.mpr ⟨rfl, hq⟩)
                  · rw [List.getElem?_set_ne hnn]

theorem eq_of_put_eq_self {x y z : Value K El} {q : List Nat} (hq : x.get? q = some y)
    (h : x.put q z = x) : z = y := by
  have hz := get?_put (y := z) hq
  rw [h, hq] at hz
  exact (Option.some.inj hz).symm

/-- Two changes at one depth with one result are the same change, or none at all. -/
theorem put_eq_put {x y y' z z' : Value K El} {q q' : List Nat} (hlen : q.length = q'.length)
    (hq : x.get? q = some y) (hq' : x.get? q' = some y') (h : x.put q z = x.put q' z') :
    q = q' ∧ z = z' ∨ z = y ∧ z' = y' := by
  induction q generalizing x q' with
  | nil =>
      cases q' with
      | nil => exact .inl ⟨rfl, h⟩
      | cons n' q' => cases hlen
  | cons n q ih =>
      cases q' with
      | nil => cases hlen
      | cons n' q' =>
          cases x with
          | null => cases hq
          | atom k v => cases hq
          | list v names =>
              obtain ⟨w, hw, hy⟩ := Option.bind_eq_some_iff.mp hq
              obtain ⟨w', hw', hy'⟩ := Option.bind_eq_some_iff.mp hq'
              simp only [put, hw, hw', list.injEq, and_true] at h
              have hn := (List.getElem?_eq_some_iff.mp hw).1
              have hn' := (List.getElem?_eq_some_iff.mp hw').1
              by_cases hnn : n = n'
              · subst hnn
                obtain rfl : w = w' := Option.some.inj (hw.symm.trans hw')
                have hput := congrArg (fun l => l[n]?) h
                simp only [List.getElem?_set_self hn, Option.some.injEq] at hput
                exact (ih (Nat.succ.inj hlen) hy hy' hput).imp_left fun h => ⟨by rw [h.1], h.2⟩
              · have hput := congrArg (fun l => l[n]?) h
                have hput' := congrArg (fun l => l[n']?) h
                simp only [List.getElem?_set_self hn, List.getElem?_set_ne (Ne.symm hnn), hw,
                  Option.some.injEq] at hput
                simp only [List.getElem?_set_self hn', List.getElem?_set_ne hnn, hw',
                  Option.some.injEq] at hput'
                exact .inr ⟨eq_of_put_eq_self hy hput, eq_of_put_eq_self hy' hput'.symm⟩

theorem get?_concat {x : Value K El} {q w ns} {n : Nat} (h : x.get? q = some (list w ns)) :
    x.get? (q ++ [n]) = w[n]? := by
  rw [get?_append, h, Option.bind_some, get?]
  cases w[n]? <;> rfl

/-- A change of an element is one of the list it is in. -/
theorem put_concat {x b : Value K El} {q : List Nat} {w : List (Value K El)} {ns : List String}
    {n : Nat} (h : x.get? q = some (list w ns)) :
    x.put (q ++ [n]) b = x.put q (list (w.set n b) ns) := by
  induction q generalizing x with
  | nil =>
      obtain rfl : x = list w ns := Option.some.inj h
      simp only [List.nil_append, put]
      cases hn : w[n]? with
      | none => rw [List.set_eq_of_length_le (List.getElem?_eq_none_iff.mp hn)]
      | some y => rfl
  | cons m q ih =>
      cases x with
      | null => cases h
      | atom k v => cases h
      | list v names =>
          obtain ⟨y, hy, hw⟩ := Option.bind_eq_some_iff.mp h
          simp only [List.cons_append, put, hy, ih hw]

/-- The number of elements of a list. -/
def width : Value K El → Nat
  | list v _ => v.length
  | _ => 0

theorem width_put_cons {x z : Value K El} {n : Nat} {q : List Nat} :
    (x.put (n :: q) z).width = x.width := by
  cases x with
  | null => rfl
  | atom k v => rfl
  | list v names =>
      rw [put]
      cases v[n]? with
      | none => rfl
      | some y => exact List.length_set

/-- Nothing that does not widen what it changes amounts to a new element of a list. -/
theorem put_ne_append {x y z b : Value K El} {q q' : List Nat} {w : List (Value K El)}
    {ns ns' : List String} (hlen : q.length = q'.length) (hq : x.get? q = some y)
    (hq' : x.get? q' = some (list w ns)) (hz : z.width ≤ y.width) :
    x.put q z ≠ x.put q' (list (w ++ [b]) ns') := by
  intro h
  have hwidth : (list (w ++ [b]) ns').width = (list w ns).width + 1 := List.length_append
  cases put_eq_put hlen hq hq' h with
  | inl hsame =>
      obtain ⟨rfl, rfl⟩ := hsame
      obtain rfl : y = list w ns := Option.some.inj (hq.symm.trans hq')
      omega
  | inr hself =>
      rw [hself.2] at hwidth
      omega

end Value

/-- An element that is assigned reads back, and the others are what they were. -/
theorem effect_element {x y z b : Value K El} {q : List Nat} (hb : b.isNull = false)
    (hz : x.get? q = some z) (h : effect convert x b (.element q) = some y) :
    y.get? q = some b ∧ ∀ q', ¬q <+: q' → ¬q' <+: q → y.get? q' = x.get? q' := by
  rw [effect, hb] at h
  obtain rfl : x.put q b = y := Option.some.inj h
  exact ⟨get?_put hz, fun q' => get?_put_other⟩

/-! ## Removing an element -/

theorem someNames_of_all {names : List String} (h : names.all (fun s => s = "") = true) :
    someNames names = [] := if_pos h

theorem addName_inj {sz : Nat} {names : List String} {s s' : String}
    (h : addName sz s names = addName sz s' names) : s = s' := by
  by_cases hnil : names = []
  · subst hnil
    simp only [addName, and_true, if_true] at h
    by_cases hs : s = "" <;> by_cases hs' : s' = ""
    · rw [hs, hs']
    · rw [if_pos hs, if_neg hs'] at h
      exact absurd h.symm (List.append_ne_nil_of_right_ne_nil _ (List.cons_ne_nil _ _))
    · rw [if_neg hs, if_pos hs'] at h
      exact absurd h (List.append_ne_nil_of_right_ne_nil _ (List.cons_ne_nil _ _))
    · rw [if_neg hs, if_neg hs'] at h
      exact (List.cons.inj (List.append_cancel_left h)).1
  · simp only [addName, hnil, and_false, if_false] at h
    exact (List.cons.inj (List.append_cancel_left h)).1

theorem someNames_eraseIdx {names : List String} {n : Nat} :
    someNames ((someNames names).eraseIdx n) = someNames (names.eraseIdx n) := by
  by_cases h : (names.all fun s => s = "") = true
  · have herase : ((names.eraseIdx n).all fun s => s = "") = true :=
      List.all_eq_true.mpr fun s hs =>
        List.all_eq_true.mp h s ((List.eraseIdx_sublist names n).subset hs)
    rw [someNames_of_all h, someNames_of_all herase]
    rfl
  · rw [show someNames names = names from if_neg h]

/-- The loop of `remove` leaves the elements behind `j` one place further down. -/
theorem shiftDown_spec {k j : Nat} {v : List (Value K El)} {names : List String}
    (hj : j + k + 1 = v.length) (hnames : names = [] ∨ names.length = v.length) :
    (shiftDown k j v names).1.take (j + k) = v.eraseIdx j ∧
      someNames ((shiftDown k j v names).2.take (j + k)) = someNames (names.eraseIdx j) := by
  induction k generalizing j v names with
  | zero =>
      have hlen : names.length ≤ j + 1 := by
        cases hnames with
        | inl h => rw [h]; exact Nat.zero_le _
        | inr h => omega
      exact ⟨take_eq_eraseIdx (l := v) (by omega), congrArg someNames (take_eq_eraseIdx hlen)⟩
  | succ k ih =>
      obtain ⟨y, hy⟩ : ∃ y, v[j + 1]? = some y :=
        ⟨_, List.getElem?_eq_getElem (show j + 1 < v.length by omega)⟩
      rw [shiftDown, hy, show j + (k + 1) = j + 1 + k by omega]
      simp only
      have hv : j + 1 + k + 1 = (v.set j y).length := by
        rw [List.length_set]
        omega
      cases hnames with
      | inl hnil =>
          subst hnil
          have h := ih hv (.inl rfl)
          rw [eraseIdx_set_next hy] at h
          exact h
      | inr hlen =>
          obtain ⟨t, ht⟩ : ∃ t, names[j + 1]? = some t :=
            ⟨_, List.getElem?_eq_getElem (show j + 1 < names.length by omega)⟩
          have hnil : names ≠ [] := List.ne_nil_of_length_pos (by omega)
          have hassign : assignName v.length j (names.getD (j + 1) "") names =
              someNames (names.set j t) := by
            rw [List.getD_eq_getElem?_getD, ht, Option.getD_some, assignName,
              if_neg fun h => hnil h.2, if_neg hnil]
          have hnames' : someNames (names.set j t) = [] ∨
              (someNames (names.set j t)).length = (v.set j y).length := by
            rw [someNames]
            split
            · exact .inl rfl
            · exact .inr (by rw [List.length_set, List.length_set, hlen])
          have h := ih hv hnames'
          rw [eraseIdx_set_next hy, someNames_eraseIdx, eraseIdx_set_next ht] at h
          rw [hassign]
          exact h

theorem remove_eq {v : List (Value K El)} {names : List String} {n : Nat} (hn : n < v.length)
    (hnames : names = [] ∨ names.length = v.length) :
    remove n v names = list (v.eraseIdx n) (someNames (names.eraseIdx n)) := by
  have hspec := shiftDown_spec (k := v.length - 1 - n) (j := n) (by omega) hnames
  rw [show n + (v.length - 1 - n) = v.length - 1 by omega] at hspec
  rw [remove, hspec.1, hspec.2]

end Ztsdb.Lang.DblAssign
