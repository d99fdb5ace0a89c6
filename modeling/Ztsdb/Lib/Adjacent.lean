import Mathlib

/-!
# Lists whose neighbours are related

`List.IsChain R` says that every element is related to the next one. The
lemmas here are the ones an in-place algorithm needs: what a write at one
place, an append or a cut does to the chain. `adjacent` decides it for a
boolean relation, and `before` and `after` are the two checks a write makes
against its neighbours.
-/

namespace Ztsdb.Lib

variable {α : Type}

/-- Every element of the list stands in `r` to the next one. -/
def adjacent (r : α → α → Bool) : List α → Bool
  | [] => true
  | [_] => true
  | a :: b :: l => r a b && adjacent r (b :: l)

theorem adjacent_iff {r : α → α → Bool} {l : List α} :
    adjacent r l = true ↔ l.IsChain (fun a b => r a b = true) := by
  induction l with
  | nil => simp [adjacent]
  | cons a l ih =>
      cases l with
      | nil => simp [adjacent]
      | cons b l => rw [adjacent, Bool.and_eq_true, ih, List.isChain_cons_cons]

/-- `r` between the element before place `i`, if there is one, and `t`. -/
def before (r : α → α → Bool) (l : List α) (i : Nat) (t : α) : Bool :=
  match i with
  | 0 => true
  | j + 1 => match l[j]? with
    | some a => r a t
    | none => true

/-- `r` between `t` and the element after place `i`, if there is one. -/
def after (r : α → α → Bool) (l : List α) (i : Nat) (t : α) : Bool :=
  match l[i + 1]? with
  | some b => r t b
  | none => true

/-- `r` over the seam of two lists. -/
def seam (r : α → α → Bool) (l l' : List α) : Bool :=
  match l'.head? with
  | some t => before r l l.length t
  | none => true

@[simp] theorem before_zero (r : α → α → Bool) (l : List α) (t : α) :
    before r l 0 t = true := rfl

theorem before_succ {r : α → α → Bool} {l : List α} {i : Nat} {a t : α}
    (h : l[i]? = some a) : before r l (i + 1) t = r a t := by
  simp only [before, h]

/-- A write keeps the chain when it fits both neighbours. -/
theorem isChain_set {R : α → α → Prop} {l : List α} {i : Nat} {t : α}
    (h : l.IsChain R) (hb : ∀ j a, i = j + 1 → l[j]? = some a → R a t)
    (ha : ∀ b, l[i + 1]? = some b → R t b) : (l.set i t).IsChain R := by
  rw [List.isChain_iff_getElem] at h ⊢
  intro j hj
  rw [List.length_set] at hj
  by_cases h1 : i = j
  · subst h1
    rw [List.getElem_set_self, List.getElem_set_ne (by omega)]
    exact ha _ (List.getElem?_eq_getElem hj)
  · by_cases h2 : i = j + 1
    · subst h2
      rw [List.getElem_set_self, List.getElem_set_ne (by omega)]
      exact hb j _ rfl (List.getElem?_eq_getElem (by omega))
    · rw [List.getElem_set_ne h1, List.getElem_set_ne h2]
      exact h j hj

/-- The seam in terms of the two elements at it. -/
theorem seam_iff {r : α → α → Bool} {l l' : List α} :
    seam r l l' = true ↔ ∀ a, l.getLast? = some a → ∀ b, l'.head? = some b → r a b = true := by
  cases l' with
  | nil => simp [seam]
  | cons b l' =>
      cases l using List.reverseRecOn with
      | nil => simp [seam, before]
      | append_singleton l a => simp [seam, before]

theorem before_append_left {r : α → α → Bool} {l l' : List α} {t : α} :
    before r (l ++ l') l.length t = before r l l.length t := by
  cases l using List.reverseRecOn with
  | nil => rfl
  | append_singleton l a => simp [before]

/-- The chain over a seam. -/
theorem isChain_append_seam {r : α → α → Bool} {l l' : List α} :
    (l ++ l').IsChain (fun a b => r a b = true) ↔
      l.IsChain (fun a b => r a b = true) ∧ l'.IsChain (fun a b => r a b = true) ∧
        seam r l l' = true := by
  rw [List.isChain_append]
  refine and_congr_right fun _ => and_congr_right fun _ => ?_
  cases l using List.reverseRecOn with
  | nil => cases l' <;> simp [seam, before]
  | append_singleton l a => cases l' <;> simp [seam, before, Option.mem_def]

/-- A seam checked by `r` continues a chain of any relation that `r` implies. -/
theorem isChain_append_of_seam {R : α → α → Prop} {r : α → α → Bool} {l l' : List α}
    (himp : ∀ a b, r a b = true → R a b) (hl : l.IsChain R) (hl' : l'.IsChain R)
    (hs : seam r l l' = true) : (l ++ l').IsChain R := by
  rw [List.isChain_append]
  refine ⟨hl, hl', ?_⟩
  intro a ha b hb
  apply himp
  cases l using List.reverseRecOn with
  | nil => cases ha
  | append_singleton l c =>
      rw [List.getLast?_concat] at ha
      cases ha
      simp only [seam, Option.mem_def.mp hb, List.length_append, List.length_singleton] at hs
      rwa [before_succ (List.getElem?_concat_length ..)] at hs

end Ztsdb.Lib
