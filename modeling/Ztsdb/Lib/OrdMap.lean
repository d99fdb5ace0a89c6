import Mathlib

/-!
# Maps in the order of their keys

An association list that is kept in the order of its keys, and the lookup of the entry
with the greatest key not beyond a given one. A map to which entries are assigned in the
order of their keys is looked up as the entries themselves: the last one that is not
beyond, or what the map had before.
-/

namespace Ztsdb.Lib.OrdMap

variable {κ α : Type} [LinearOrder κ]

/-- `m[k] = v`. -/
def assign (k : κ) (v : α) : List (κ × α) → List (κ × α)
  | [] => [(k, v)]
  | e :: m => if k < e.1 then (k, v) :: e :: m else if k = e.1 then (k, v) :: m else e :: assign k v m

/-- The value of the last entry that is not beyond `l`, `none` when the first one is. -/
def floor? : List (κ × α) → κ → Option α
  | [], _ => none
  | e :: m, l => if e.1 ≤ l then some ((floor? m l).getD e.2) else none

/-- The last of some assignments that is not beyond `l`, or what there was before them. -/
def overlaid (l : κ) : List (κ × α) → Option α → Option α
  | [], v => v
  | e :: es, v => overlaid l es (if e.1 ≤ l then some e.2 else v)

theorem mem_assign {k : κ} {v : α} {m : List (κ × α)} {e : κ × α} (h : e ∈ assign k v m) :
    e.1 = k ∨ e ∈ m := by
  induction m with
  | nil => exact Or.inl (by rw [List.mem_singleton.mp h])
  | cons e' m ih =>
      rw [assign] at h
      split at h
      · rcases List.mem_cons.mp h with rfl | h
        · exact Or.inl rfl
        · exact Or.inr h
      · split at h
        · rcases List.mem_cons.mp h with rfl | h
          · exact Or.inl rfl
          · exact Or.inr (.tail _ h)
        · rcases List.mem_cons.mp h with rfl | h
          · exact Or.inr (.head _)
          · exact (ih h).imp_right (.tail _)

/-- The keys ascend. -/
def Sorted (m : List (κ × α)) : Prop := m.Pairwise fun a b => a.1 < b.1

theorem sorted_assign {k : κ} {v : α} {m : List (κ × α)} (h : Sorted m) :
    Sorted (assign k v m) := by
  induction m with
  | nil => exact List.pairwise_singleton _ _
  | cons e m ih =>
      have hcons := List.pairwise_cons.mp h
      rw [assign]
      split
      · next hlt =>
          refine List.pairwise_cons.mpr ⟨fun e' he' => ?_, h⟩
          rcases List.mem_cons.mp he' with rfl | he'
          · exact hlt
          · exact hlt.trans (hcons.1 e' he')
      · next hge =>
          split
          · next heq => exact List.pairwise_cons.mpr ⟨fun e' he' => heq ▸ hcons.1 e' he', hcons.2⟩
          · next hne =>
              refine List.pairwise_cons.mpr ⟨fun e' he' => ?_, ih hcons.2⟩
              rcases mem_assign he' with hk | he'
              · rw [hk]
                exact lt_of_le_of_ne (not_lt.mp hge) (Ne.symm hne)
              · exact hcons.1 e' he'

/-- An entry assigned at the end of a map is found from its key on. -/
theorem floor?_assign {k l : κ} {v : α} {m : List (κ × α)} (h : Sorted m)
    (hm : ∀ e ∈ m, e.1 ≤ k) : floor? (assign k v m) l = if k ≤ l then some v else floor? m l := by
  induction m with
  | nil =>
      rw [assign, floor?, floor?]
      rfl
  | cons e m ih =>
      have hcons := List.pairwise_cons.mp h
      have he := hm e (.head _)
      rw [assign, if_neg (not_lt.mpr he)]
      split
      · next heq =>
          -- the entry is replaced, and it is the last one
          have hnil : m = [] := by
            cases m with
            | nil => rfl
            | cons e' m =>
                have hlt := hcons.1 e' (.head _)
                exact absurd (hm e' (.tail _ (.head _))) (not_le.mpr (heq ▸ hlt))
          rw [hnil, floor?, floor?, floor?, heq]
          split <;> rfl
      · rw [floor?, floor?, ih hcons.2 fun e' he' => hm e' (.tail _ he')]
        by_cases hkl : k ≤ l
        · rw [if_pos (he.trans hkl), if_pos hkl, if_pos hkl]
          rfl
        · rw [if_neg hkl, if_neg hkl]

/-- Assignments in the order of their keys, behind what a map has. -/
theorem floor?_foldl {l : κ} {es m : List (κ × α)} (h : Sorted m) (hes : Sorted es)
    (hm : ∀ e ∈ m, ∀ e' ∈ es, e.1 ≤ e'.1) :
    floor? (es.foldl (fun m e => assign e.1 e.2 m) m) l = overlaid l es (floor? m l) := by
  induction es generalizing m with
  | nil => rfl
  | cons e es ih =>
      have hcons := List.pairwise_cons.mp hes
      rw [List.foldl_cons, ih (sorted_assign h) hcons.2, overlaid,
        floor?_assign h fun e' he' => hm e' he' e (.head _)]
      intro e' he' e'' he''
      rcases mem_assign he' with hk | he'
      · rw [hk]
        exact (hcons.1 e'' he'').le
      · exact hm e' he' e'' (.tail _ he'')

/-- Before the first of some assignments there is what there was. -/
theorem overlaid_of_lt {l : κ} {es : List (κ × α)} {v : Option α} (h : ∀ e ∈ es, l < e.1) :
    overlaid l es v = v := by
  induction es with
  | nil => rfl
  | cons e es ih =>
      rw [overlaid, if_neg (not_le.mpr (h e (.head _)))]
      exact ih fun e' he' => h e' (.tail _ he')

theorem overlaid_append {l : κ} {es es' : List (κ × α)} {v : Option α} :
    overlaid l (es ++ es') v = overlaid l es' (overlaid l es v) := by
  induction es generalizing v with
  | nil => rfl
  | cons e es ih => rw [List.cons_append, overlaid, overlaid, ih]

end Ztsdb.Lib.OrdMap
