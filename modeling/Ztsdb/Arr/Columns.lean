import Mathlib
import Ztsdb.Arr.Machine
import Ztsdb.Lib.Loop

/-!
# Columns in place

What the functions that run down the columns of an array see of it: the extent of the first
dimension and the columns, each of that length. They read a column with `operator[]`, whose
bound is `size() - 1` and wraps for an empty column, and write it with `setv`.

A column is also seen as a function of the row: a write is an update of the function.
-/

namespace Ztsdb.Arr

open Ztsdb.Lib

/-- What an array holds, its names left out. A column is a block of memory, and there is none of
half the address space. -/
structure Columns (α : Type) where
  rows : Nat
  v : List (List α)
  rows_lt : rows < 2 ^ 64
  full : ∀ c ∈ v, c.length = rows
  held : v ≠ [] → rows < 2 ^ 63

namespace Columns

variable {α σ τ : Type}

/-- `operator[](i)` of a column; `s` is the state of the command that reads. -/
def read (s : σ) (col : List α) (i : Nat) : Outcome Exn σ α :=
  if col = [] then .fault
  else match col[i]? with
    | some x => .ok x s
    | none => .throw (.outOfRange "subscript out of bounds") s

def setv (i : Nat) (x : α) (col : List α) : Outcome Exn (List α) Unit :=
  if col.length ≤ i then .throw (.rangeError "subscript out of bounds") col
  else .ok () (col.set i x)

/-- A command for each column in turn, with a state that goes from one to the next. -/
def eachColWith (f : List α × τ → Outcome Exn (List α × τ) Unit) :
    List (List α) → τ → Outcome Exn (List (List α) × τ) Unit
  | [], t => .ok () ([], t)
  | c :: cs, t =>
    match f (c, t) with
    | .ok _ (c', t) => (eachColWith f cs t).mapState fun s => (c' :: s.1, s.2)
    | .throw e (c', t) => .throw e (c' :: cs, t)
    | .fault => .fault

/-- A command for each column in turn. -/
def eachCol (f : List α → Outcome Exn (List α) Unit) :
    List (List α) → Outcome Exn (List (List α)) Unit
  | [] => .ok () []
  | c :: cs =>
    match f c with
    | .ok _ c' => (eachCol f cs).mapState (c' :: ·)
    | .throw e c' => .throw e (c' :: cs)
    | .fault => .fault

/-! ## Columns as functions -/

/-- The column of `n` rows with the values of `h`. -/
def tab (n : Nat) (h : Nat → α) : List α := (List.range n).map h

@[simp] theorem length_tab (n : Nat) (h : Nat → α) : (tab n h).length = n := by
  rw [tab, List.length_map, List.length_range]

theorem getElem?_tab (h : Nat → α) {n i : Nat} (hi : i < n) : (tab n h)[i]? = some (h i) := by
  rw [tab, List.getElem?_map, List.getElem?_range hi]
  rfl

theorem tab_ne_nil (h : Nat → α) {n : Nat} (hn : 0 < n) : tab n h ≠ [] := by
  intro hnil
  have := length_tab n h
  rw [hnil] at this
  exact absurd this (by rw [List.length_nil]; omega)

theorem tab_congr {h h' : Nat → α} {n : Nat} (heq : ∀ i, i < n → h i = h' i) : tab n h = tab n h' := by
  rw [tab, tab]
  exact List.map_congr_left fun i hi => heq i (List.mem_range.1 hi)

theorem tab_inj {h h' : Nat → α} {n : Nat} (heq : tab n h = tab n h') {i : Nat} (hi : i < n) :
    h i = h' i := by
  have := congrArg (·[i]?) heq
  simpa only [getElem?_tab _ hi, Option.some.injEq] using this

/-- Every column is one. -/
theorem eq_tab (col : List α) (x : α) : col = tab col.length fun i => col.getD i x := by
  apply List.ext_getElem?
  intro i
  rcases Nat.lt_or_ge i col.length with hi | hi
  · rw [getElem?_tab _ hi, List.getD_eq_getElem?_getD, List.getElem?_eq_getElem hi]
    rfl
  · rw [List.getElem?_eq_none hi, List.getElem?_eq_none (by rw [length_tab]; exact hi)]

/-- The cells of a column by their row. -/
def cells (col : List (Option α)) (i : Nat) : Option α := col.getD i none

theorem tab_cells {col : List (Option α)} {n : Nat} (hlen : col.length = n) :
    tab n (cells col) = col := by
  rw [← hlen]
  exact (eq_tab col none).symm

theorem cells_tab (h : Nat → Option α) {n i : Nat} (hi : i < n) : cells (tab n h) i = h i := by
  rw [cells, List.getD_eq_getElem?_getD, getElem?_tab h hi, Option.getD_some]

theorem exists_tab {a : Columns (Option α)} {c : List (Option α)} (hc : c ∈ a.v) :
    ∃ h, c = tab a.rows h :=
  ⟨cells c, (tab_cells (a.full c hc)).symm⟩

theorem set_tab (h : Nat → α) (n i : Nat) (x : α) :
    (tab n h).set i x = tab n (Function.update h i x) := by
  apply List.ext_getElem?
  intro j
  rcases Nat.lt_or_ge j n with hj | hj
  · rw [List.getElem?_set, length_tab, getElem?_tab _ hj, getElem?_tab _ hj]
    by_cases hij : i = j
    · subst hij
      rw [if_pos rfl, if_pos hj, Function.update_self]
    · rw [if_neg hij, Function.update_of_ne (Ne.symm hij)]
  · rw [List.getElem?_eq_none (by rw [List.length_set, length_tab]; exact hj),
      List.getElem?_eq_none (by rw [length_tab]; exact hj)]

theorem read_tab (s : σ) (h : Nat → α) {n i : Nat} (hi : i < n) : read s (tab n h) i = .ok (h i) s := by
  rw [read, if_neg (tab_ne_nil h (by omega)), getElem?_tab h hi]

theorem read_beyond (s : σ) {col : List α} {i : Nat} (hcol : col ≠ []) (hi : col.length ≤ i) :
    read s col i = .throw (.outOfRange "subscript out of bounds") s := by
  rw [read, if_neg hcol, List.getElem?_eq_none hi]

theorem setv_tab (h : Nat → α) {n i : Nat} (x : α) (hi : i < n) :
    setv i x (tab n h) = .ok () (tab n (Function.update h i x)) := by
  rw [setv, length_tab, if_neg (by omega), set_tab]

theorem setv_beyond {col : List α} {i : Nat} (x : α) (hi : col.length ≤ i) :
    setv i x col = .throw (.rangeError "subscript out of bounds") col := by
  rw [setv, if_pos hi]

/-! A column whose cells above row `r` have their output already. -/

section Overwritten

variable {out h : Nat → α} {r i : Nat}

def overwritten (out h : Nat → α) (r i : Nat) : α := if i < r then out i else h i

theorem overwritten_zero : overwritten out h 0 = h := by
  funext i
  rw [overwritten, if_neg (Nat.not_lt_zero i)]

theorem overwritten_above (hi : i < r) : overwritten out h r i = out i := if_pos hi

theorem overwritten_from (hi : r ≤ i) : overwritten out h r i = h i := if_neg (Nat.not_lt.2 hi)

theorem update_overwritten :
    Function.update (overwritten out h r) r (out r) = overwritten out h (r + 1) := by
  funext i
  rcases Nat.lt_trichotomy i r with hi | rfl | hi
  · rw [Function.update_of_ne (by omega), overwritten_above hi, overwritten_above (by omega)]
  · rw [Function.update_self, overwritten_above (Nat.lt_succ_self i)]
  · rw [Function.update_of_ne (by omega), overwritten_from hi.le, overwritten_from hi]

theorem tab_overwritten {n : Nat} : tab n (overwritten out h n) = tab n out :=
  tab_congr fun _ hi => overwritten_above hi

end Overwritten

/-! ## All columns -/

theorem eachCol_eq_ok {f : List α → Outcome Exn (List α) Unit} {g : List α → List α}
    {cs : List (List α)} (h : ∀ c ∈ cs, f c = .ok () (g c)) : eachCol f cs = .ok () (cs.map g) := by
  induction cs with
  | nil => rfl
  | cons c cs ih =>
      rw [eachCol, h c List.mem_cons_self]
      simp only [ih fun d hd => h d (List.mem_cons_of_mem c hd), Outcome.mapState_ok, List.map_cons]

theorem eachCol_throw {f : List α → Outcome Exn (List α) Unit} {c c' : List α} {cs : List (List α)}
    {e : Exn} (h : f c = .throw e c') : eachCol f (c :: cs) = .throw e (c' :: cs) := by
  rw [eachCol, h]

theorem eachCol_fault {f : List α → Outcome Exn (List α) Unit} {c : List α} {cs : List (List α)}
    (h : f c = .fault) : eachCol f (c :: cs) = .fault := by
  rw [eachCol, h]

/-- The state that goes from column to column keeps a property. -/
theorem eachColWith_eq_ok {f : List α × τ → Outcome Exn (List α × τ) Unit} {g : List α → List α}
    {P : τ → Prop} {cs : List (List α)} {t : τ}
    (h : ∀ c ∈ cs, ∀ t, P t → ∃ t', f (c, t) = .ok () (g c, t') ∧ P t') (ht : P t) :
    ∃ t', eachColWith f cs t = .ok () (cs.map g, t') ∧ P t' := by
  induction cs generalizing t with
  | nil => exact ⟨t, rfl, ht⟩
  | cons c cs ih =>
      obtain ⟨t', hc, ht'⟩ := h c List.mem_cons_self t ht
      obtain ⟨t'', hcs, ht''⟩ := ih (fun d hd => h d (List.mem_cons_of_mem c hd)) ht'
      refine ⟨t'', ?_, ht''⟩
      rw [eachColWith, hc]
      simp only [hcs, Outcome.mapState_ok, List.map_cons]

/-- What a run over all columns that has returned `g` of each says of each. -/
theorem eachColWith_sound {f : List α × τ → Outcome Exn (List α × τ) Unit} {g : List α → List α}
    {P : τ → Prop} {Q : List α → Prop} {cs : List (List α)} {t t' : τ}
    (h : ∀ c ∈ cs, ∀ t t', P t → f (c, t) = .ok () (g c, t') → P t' ∧ Q c) (ht : P t)
    (hrun : eachColWith f cs t = .ok () (cs.map g, t')) : ∀ c ∈ cs, Q c := by
  induction cs generalizing t with
  | nil => exact fun c hc => absurd hc List.not_mem_nil
  | cons c cs ih =>
      rw [eachColWith] at hrun
      cases hf : f (c, t) with
      | ok _ s =>
          rw [hf] at hrun
          simp only [List.map_cons] at hrun
          obtain ⟨u, hrest, heq⟩ := Outcome.mapState_eq_ok.1 hrun
          injection heq with hcons htail
          injection hcons with hhead hcols
          obtain ⟨c', s'⟩ := s
          simp only at hhead hcols htail hrest
          subst hhead
          obtain ⟨hs, hc⟩ := h c List.mem_cons_self t s' ht hf
          intro d hd
          rcases List.mem_cons.1 hd with rfl | hd
          · exact hc
          · refine ih (fun e he => h e (List.mem_cons_of_mem c he)) hs ?_ d hd
            rw [hrest, ← hcols, ← htail]
      | throw e s =>
          rw [hf] at hrun
          cases hrun
      | fault =>
          rw [hf] at hrun
          cases hrun

/-- A property of each item with what the items before it have left. -/
def Along {β υ : Type} (P : υ → β → Prop) (next : υ → β → υ) : υ → List β → Prop
  | _, [] => True
  | u, c :: cs => P u c ∧ Along P next (next u c) cs

instance {β υ : Type} (P : υ → β → Prop) [∀ u c, Decidable (P u c)] (next : υ → β → υ) :
    ∀ u cs, Decidable (Along P next u cs)
  | _, [] => .isTrue trivial
  | u, c :: cs =>
    have := instDecidableAlong P next (next u c) cs
    inferInstanceAs (Decidable (P u c ∧ Along P next (next u c) cs))

theorem along_congr {β υ : Type} {P Q : υ → β → Prop} {next : υ → β → υ} {cs : List β} {u : υ}
    (h : ∀ c ∈ cs, ∀ u, P u c ↔ Q u c) : Along P next u cs ↔ Along Q next u cs := by
  induction cs generalizing u with
  | nil => exact Iff.rfl
  | cons c cs ih =>
      rw [Along, Along, h c List.mem_cons_self u, ih fun d hd => h d (List.mem_cons_of_mem c hd)]

/-- A run whose other state is dropped. -/
theorem mapState_fst_eq_ok {o : Outcome Exn (List (List α) × τ) Unit} {cs : List (List α)} :
    o.mapState Prod.fst = .ok () cs ↔ ∃ t, o = .ok () (cs, t) := by
  rw [Outcome.mapState_eq_ok]
  constructor
  · intro ⟨⟨cs', t⟩, hrun, hcs⟩
    exact ⟨t, by rw [hrun, ← hcs]⟩
  · intro ⟨t, hrun⟩
    exact ⟨_, hrun, rfl⟩

/-- A run over all columns that always returns: when each column comes out as `g` of it. `R` is
what is known of the state. -/
theorem eachColWith_iff {υ : Type} {f : List α × τ → Outcome Exn (List α × τ) Unit}
    {g : List α → List α} {R : υ → τ → Prop} {out : υ → List α → List α} {next : υ → List α → υ}
    {cs : List (List α)} {u : υ} {t : τ}
    (h : ∀ c ∈ cs, ∀ u t, R u t → ∃ t', f (c, t) = .ok () (out u c, t') ∧ R (next u c) t')
    (ht : R u t) : (∃ t', eachColWith f cs t = .ok () (cs.map g, t')) ↔
      Along (fun u c => out u c = g c) next u cs := by
  induction cs generalizing u t with
  | nil => exact iff_of_true ⟨t, rfl⟩ trivial
  | cons c cs ih =>
      obtain ⟨t', hc, ht'⟩ := h c List.mem_cons_self u t ht
      have ih := ih (fun d hd => h d (List.mem_cons_of_mem c hd)) ht'
      rw [Along, ← ih, eachColWith, hc]
      simp only
      constructor
      · intro ⟨t'', hrun⟩
        obtain ⟨s, hrest, heq⟩ := Outcome.mapState_eq_ok.1 hrun
        rw [List.map_cons, Prod.mk.injEq, List.cons.injEq] at heq
        exact ⟨heq.1.1, t'', by rw [hrest, ← heq.1.2, ← heq.2]⟩
      · intro ⟨heq, t'', hrest⟩
        exact ⟨t'', by rw [hrest, Outcome.mapState_ok, heq, List.map_cons]⟩

theorem eachColWith_throw {f : List α × τ → Outcome Exn (List α × τ) Unit} {c c' : List α}
    {cs : List (List α)} {t t' : τ} {e : Exn} (h : f (c, t) = .throw e (c', t')) :
    eachColWith f (c :: cs) t = .throw e (c' :: cs, t') := by
  rw [eachColWith, h]

end Columns

end Ztsdb.Arr
