import Mathlib

/-!
# Bounded functions, and input in portions

A function with a bound on its work has no result when it would take more. It `Deepens` when
a larger bound never changes a result that is there.

A state that takes its input in portions is the same whether it took them alone or between
the portions of others: `inputs` is what of a sequence is for one of many states, which are
told apart by a key.
-/

namespace Ztsdb.Lib

variable {α β χ σ κ μ : Type}

/-! ## What a bound leaves out -/

/-- The second has every result of the first. -/
def Refines (x y : Option α) : Prop := ∀ a, x = some a → y = some a

theorem Refines.refl (x : Option α) : Refines x x := fun _ h => h

theorem Refines.trans {x y z : Option α} (h : Refines x y) (h' : Refines y z) : Refines x z :=
  fun a ha => h' a (h a ha)

theorem Refines.bind {x y : Option α} {f g : α → Option β} (h : Refines x y)
    (hf : ∀ a, Refines (f a) (g a)) : Refines (x.bind f) (y.bind g) := by
  intro b hb
  obtain ⟨a, ha, hb⟩ := Option.bind_eq_some_iff.mp hb
  rw [h a ha, Option.bind_some]
  exact hf a b hb

theorem Refines.map {x y : Option α} (h : Refines x y) (f : α → β) : Refines (x.map f) (y.map f) := by
  intro b hb
  obtain ⟨a, ha, rfl⟩ := Option.map_eq_some_iff.mp hb
  rw [h a ha, Option.map_some]

theorem Refines.ite {c : Prop} [Decidable c] {x y z w : Option α} (h : c → Refines x y)
    (h' : ¬c → Refines z w) : Refines (if c then x else z) (if c then y else w) := by
  by_cases hc : c
  · rw [if_pos hc, if_pos hc]
    exact h hc
  · rw [if_neg hc, if_neg hc]
    exact h' hc

/-- A larger bound gives the same. -/
def Deepens (f : Nat → α → Option β) : Prop := ∀ k a, Refines (f k a) (f (k + 1) a)

theorem Deepens.le {f : Nat → α → Option β} (h : Deepens f) {j k : Nat} (hjk : j ≤ k) (a : α) :
    Refines (f j a) (f k a) := by
  induction k, hjk using Nat.le_induction with
  | base => exact .refl _
  | succ k _ ih => exact ih.trans (h k a)

/-- There is one result, whatever the bound. -/
theorem Deepens.unique {f : Nat → α → Option β} (h : Deepens f) {j k : Nat} {a : α} {b c : β}
    (hb : f j a = some b) (hc : f k a = some c) : b = c := by
  have hb' := h.le (le_max_left j k) a b hb
  rw [h.le (le_max_right j k) a c hc] at hb'
  exact (Option.some.inj hb').symm

/-! ## Portions -/

/-- One portion after the other. -/
def takes (f : χ → σ → Option σ) (cs : List χ) (s : σ) : Option σ := cs.foldlM (fun s c => f c s) s

@[simp] theorem takes_nil (f : χ → σ → Option σ) (s : σ) : takes f [] s = some s := rfl

theorem takes_cons (f : χ → σ → Option σ) (c : χ) (cs : List χ) (s : σ) :
    takes f (c :: cs) s = (f c s).bind (takes f cs) :=
  List.foldlM_cons

theorem takes_append (f : χ → σ → Option σ) (cs ds : List χ) (s : σ) :
    takes f (cs ++ ds) s = (takes f cs s).bind (takes f ds) :=
  List.foldlM_append

theorem takes_one (f : χ → σ → Option σ) (c : χ) (s : σ) : takes f [c] s = f c s := by
  rw [takes_cons]
  cases f c s with
  | none => rfl
  | some s => rfl

/-- A bound on each portion is one on all. -/
theorem Deepens.takes {f : Nat → χ → σ → Option σ} (h : ∀ c, Deepens fun k => f k c) (cs : List χ) :
    Deepens fun k => takes (f k) cs := by
  intro k s
  induction cs generalizing s with
  | nil => exact .refl _
  | cons c cs ih =>
      simp only [takes_cons]
      exact (h c k s).bind ih

/-- The portion that comes next: it has a result from some bound on, and no other one. -/
theorem Deepens.next {f : Nat → χ → σ → Option σ} (h : ∀ c, Deepens fun k => f k c) {cs : List χ} {c : χ}
    {i j : Nat} {s₀ s s' : σ} (hs : Lib.takes (f i) cs s₀ = some s)
    (hs' : Lib.takes (f j) (cs ++ [c]) s₀ = some s') :
    (∀ k t, f k c s = some t → t = s') ∧ ∃ k₀, ∀ k, k₀ ≤ k → f k c s = some s' := by
  have hnext : f (max i j) c s = some s' := by
    have hall := (Deepens.takes h (cs ++ [c])).le (le_max_right i j) s₀ s' hs'
    rw [takes_append, (Deepens.takes h cs).le (le_max_left i j) s₀ s hs, Option.bind_some,
      takes_one] at hall
    exact hall
  exact ⟨fun k t ht => (h c).unique ht hnext, max i j, fun k hk => (h c).le hk s s' hnext⟩

/-! ## Portions for one of many -/

variable [DecidableEq κ]

/-- What there is for one key. -/
def inputs (key : χ → Option κ) (a : κ) (ms : List χ) : List χ :=
  ms.filter fun m => decide (key m = some a)

theorem inputs_append (key : χ → Option κ) (a : κ) (ms ns : List χ) :
    inputs key a (ms ++ ns) = inputs key a ms ++ inputs key a ns :=
  List.filter_append ..

theorem inputs_take_succ (key : χ → Option κ) (a : κ) {ms : List χ} {n : Nat} {m : χ} (h : ms[n]? = some m) :
    inputs key a (ms.take (n + 1)) =
      if key m = some a then inputs key a (ms.take n) ++ [m] else inputs key a (ms.take n) := by
  obtain ⟨hn, rfl⟩ := List.getElem?_eq_some_iff.mp h
  rw [List.take_succ_eq_append_getElem hn, inputs_append]
  split
  · next hk => exact congrArg (inputs key a (ms.take n) ++ ·) (List.filter_cons_of_pos (decide_eq_true hk))
  · next hk =>
      have hnil : inputs key a [ms[n]] = [] := List.filter_cons_of_neg (by simpa using hk)
      rw [hnil, List.append_nil]

theorem inputs_drop (key : χ → Option κ) (a : κ) {ms : List χ} {n : Nat} {m : χ} (h : ms[n]? = some m) :
    inputs key a (ms.drop n) =
      if key m = some a then m :: inputs key a (ms.drop (n + 1)) else inputs key a (ms.drop (n + 1)) := by
  obtain ⟨hn, rfl⟩ := List.getElem?_eq_some_iff.mp h
  rw [List.drop_eq_getElem_cons hn]
  split
  · next hk => exact List.filter_cons_of_pos (decide_eq_true hk)
  · next hk => exact List.filter_cons_of_neg (by simpa using hk)

/-- What has come and what is to come for one key. -/
theorem inputs_split (key : χ → Option κ) (a : κ) (ms : List χ) (n : Nat) :
    inputs key a ms = inputs key a (ms.take n) ++ inputs key a (ms.drop n) := by
  rw [← inputs_append, List.take_append_drop]

/-- What one of the states is behind the first `n` of the messages, with the portion that is
in each. -/
def Collected (key : μ → Option κ) (a : κ) (part : μ → χ) (f : Nat → χ → σ → Option σ) (s₀ : σ)
    (ms : List μ) (n : Nat) (s : σ) : Prop :=
  ∃ k, takes (f k) ((inputs key a (ms.take n)).map part) s₀ = some s

variable {key : μ → Option κ} {a : κ} {part : μ → χ} {f : Nat → χ → σ → Option σ} {s₀ s s' : σ}
  {ms : List μ} {n : Nat} {m : μ}

theorem Collected.other (h : Collected key a part f s₀ ms n s) (hm : ms[n]? = some m)
    (hk : key m ≠ some a) : Collected key a part f s₀ ms (n + 1) s := by
  obtain ⟨k, h⟩ := h
  exact ⟨k, by rw [inputs_take_succ key a hm, if_neg hk]; exact h⟩

/-- A message for it: what comes of its portion is what it is afterwards. -/
theorem Collected.own (h : Collected key a part f s₀ ms n s) (hf : ∀ c, Deepens fun k => f k c)
    (hm : ms[n]? = some m) (hk : key m = some a) (hs' : Collected key a part f s₀ ms (n + 1) s') :
    (∀ k t, f k (part m) s = some t → t = s') ∧ ∃ k₀, ∀ k, k₀ ≤ k → f k (part m) s = some s' := by
  obtain ⟨i, h⟩ := h
  obtain ⟨j, hs'⟩ := hs'
  rw [inputs_take_succ key a hm, if_pos hk, List.map_append] at hs'
  exact Deepens.next hf h hs'

end Ztsdb.Lib
