import Mathlib
import Ztsdb.Lang.RunSame

/-!
# Operands

An operand becomes statements and an atom. After the statements the variables are those
that the evaluation of the operand leaves, and the atom has its value for as long as the
variables it reads and the temporaries of the operand keep theirs. So have the operands of
an operator when what is hoisted from the right leaves the variables that are read in place
on the left alone.
-/

namespace Ztsdb.Lang

open Anf E

variable {V : Type} {F : Prims V} {σ τ ρ τ' : Store V} {e e' : E} {el : List E} {n n' m : Nat}

/-! ## Walks -/

section Ends

variable {α β : Type}

/-- When the walk ends, everything it inserts goes into the list of the statement. -/
def Ends (m : Anf α) (n : Nat) (P : α → List E → Nat → Prop) : Prop :=
  ∀ a hs n', m n = .ok (a, hs, n') → ∃ h, hs = h.map (fun e => (Into.el, e)) ∧ P a h n'

variable {P Q : α → List E → Nat → Prop}

theorem Ends.mono {m : Anf α} (h : Ends m n P) (hPQ : ∀ a h n', P a h n' → Q a h n') :
    Ends m n Q := by
  intro a hs n' hm
  obtain ⟨h, rfl, hP⟩ := h a hs n' hm
  exact ⟨h, rfl, hPQ a h n' hP⟩

theorem ends_pure {a : α} (h : P a [] n) : Ends (pure a) n P := by
  intro a' hs n' hm
  cases hm
  exact ⟨[], rfl, h⟩

theorem ends_gensym {P : String → List E → Nat → Prop} (h : P (anfName (n + 1)) [] (n + 1)) :
    Ends (gensym "?anf") n P := by
  intro a hs n' hm
  cases hm
  exact ⟨[], rfl, h⟩

theorem ends_addafter {P : Unit → List E → Nat → Prop} (h : P () [e] n) :
    Ends (addafter .el e) n P := by
  intro a hs n' hm
  cases hm
  exact ⟨[e], rfl, h⟩

theorem ends_bind {m : Anf α} {k : α → Anf β} {P : β → List E → Nat → Prop}
    (h : Ends m n fun a h n₁ => Ends (k a) n₁ fun b h' n' => P b (h ++ h') n') :
    Ends (m >>= k) n P := by
  intro b hs n' hm
  obtain ⟨a, hs₁, n₁, hs₂, hfirst, hrest, rfl⟩ := bind_eq_ok hm
  obtain ⟨h₁, rfl, hk⟩ := h a hs₁ n₁ hfirst
  obtain ⟨h₂, rfl, hP⟩ := hk b hs₂ n' hrest
  exact ⟨h₁ ++ h₂, by simp, hP⟩

/-- A statement takes in what is inserted before it. -/
theorem ends_statement {m : Anf E} {P : List E → List E → Nat → Prop}
    (h : Ends m n fun e h n' => P (h ++ [e]) [] n') : Ends (statement m) n P := by
  intro el hs n' hm
  rw [statement] at hm
  split at hm
  · cases hm
  · next e hs' n₁ hok =>
      cases hm
      obtain ⟨h', rfl, hP⟩ := h e hs' n' hok
      have hel : of .el (h'.map fun e => (Into.el, e)) = h' := by
        simp [of, List.filter_map, Function.comp_def]
      have htop : of .top (h'.map fun e => (Into.el, e)) = [] := by
        simp [of, List.filter_map, Function.comp_def]
      rw [hel, htop]
      exact ⟨[], rfl, hP⟩

end Ends

/-! ## Operands -/

/-- An atom has its value, as long as some variables and the temporaries of a range have
theirs. -/
def Settled (F : Prims V) (e' : E) (v : V) (vars : List String) (n n' : Nat) (τ : Store V) :
    Prop :=
  ∀ ρ : Store V, (∀ s ∈ vars, ρ.env.find s = τ.env.find s) →
    (∀ k, n < k → k ≤ n' → ρ.tmp (anfName k) = τ.tmp (anfName k)) →
    evalAtom F ρ e' = some v ∧ run F e' ρ = (some v, ρ)

/-- The operand `e`, which was stripped, has become the statements `h` and the atom `e'`. It
may fail in the statements or in the atom. -/
structure Operand (F : Prims V) (e : E) (n : Nat) (e' : E) (h : List E) (n' : Nat) : Prop where
  le : n ≤ n'
  still : hoistsAs true e = false → h = []
  name : ∀ s ref, e = etsymbol s ref → e' = e
  head : ∀ s ref, e' = etsymbol s ref →
    isTmp s = true ∨ e = etsymbol s ref ∨ isSpecial e = true
  goes : ∀ (σ τ : Store V) (w v : V) (σ₁ : Store V), τ.env = σ.env → Steady F e σ →
    eval F e σ = (some v, σ₁) → ∃ w' τ₁, runAll F h w τ = (some w', τ₁) ∧ τ₁.env = σ₁.env ∧
      Kept n n' τ.tmp τ₁.tmp ∧ Settled F e' v (inPlaceAs true e) n n' τ₁
  late : ∀ (σ τ : Store V) (w : V) (σ₁ : Store V), τ.env = σ.env → Steady F e σ →
    eval F e σ = (none, σ₁) → failsAs F true e σ = true →
      ∃ w' τ₁, runAll F h w τ = (some w', τ₁) ∧ τ₁.env = σ₁.env ∧ Kept n n' τ.tmp τ₁.tmp ∧
        evalAtom F τ₁ e' = none ∧ run F e' τ₁ = (none, τ₁)
  early : ∀ (σ τ : Store V) (w : V) (σ₁ : Store V), τ.env = σ.env → Steady F e σ →
    eval F e σ = (none, σ₁) → failsAs F true e σ = false →
      ∃ τ₁, runAll F h w τ = (none, τ₁) ∧ τ₁.env = σ₁.env ∧ Kept n n' τ.tmp τ₁.tmp

/-- The expression `e` has become the statements `h` and, after them, `e'`. -/
structure Walked (F : Prims V) (e : E) (n : Nat) (e' : E) (h : List E) (n' : Nat) : Prop where
  le : n ≤ n'
  same : ∀ (σ τ : Store V) (w : V), τ.env = σ.env → Steady F e σ →
    Same n n' τ.tmp (runAll F (h ++ [e']) w τ) (eval F e σ)

theorem Operand.walked {h : List E} (ho : Operand F e n e' h n') : Walked F e n e' h n' where
  le := ho.le
  same := by
    intro σ τ w henv hs
    rw [runAll_append]
    cases heval : eval F e σ with
    | mk r σ₁ =>
        cases r with
        | some v =>
            obtain ⟨w', τ₁, hrun, henv₁, hkept, hset⟩ := ho.goes σ τ w v σ₁ henv hs heval
            have hlast := (hset τ₁ (fun _ _ => rfl) fun _ _ _ => rfl).2
            rw [hrun, Result.andThen, runAll_singleton, hlast]
            exact ⟨rfl, henv₁, hkept⟩
        | none =>
            cases hfails : failsAs F true e σ with
            | true =>
                obtain ⟨w', τ₁, hrun, henv₁, hkept, -, hlast⟩ :=
                  ho.late σ τ w σ₁ henv hs heval hfails
                rw [hrun, Result.andThen, runAll_singleton, hlast]
                exact ⟨rfl, henv₁, hkept⟩
            | false =>
                obtain ⟨τ₁, hrun, henv₁, hkept⟩ := ho.early σ τ w σ₁ henv hs heval hfails
                rw [hrun]
                exact ⟨rfl, henv₁, hkept⟩

theorem Walked.of_strip {h : List E} (hw : Walked F e.strip n e' h n') : Walked F e n e' h n' where
  le := hw.le
  same := by
    intro σ τ w henv hs
    rw [← eval_strip]
    exact hw.same σ τ w henv (steady_strip hs)

/-- A longer range of temporaries does no harm. -/
theorem Operand.widen {h : List E} {n₁ : Nat} (ho : Operand F e n e' h n₁) (hle : n₁ ≤ n') :
    Operand F e n e' h n' where
  le := ho.le.trans hle
  still := ho.still
  name := ho.name
  head := ho.head
  goes := by
    intro σ τ w v σ₁ henv hs heval
    obtain ⟨w', τ₁, hrun, henv₁, hkept, hset⟩ := ho.goes σ τ w v σ₁ henv hs heval
    exact ⟨w', τ₁, hrun, henv₁, hkept.mono le_rfl hle,
      fun ρ hvars htmp => hset ρ hvars fun k hk hk' => htmp k hk (hk'.trans hle)⟩
  late := by
    intro σ τ w σ₁ henv hs heval hfails
    obtain ⟨w', τ₁, hrun, henv₁, hkept, hend⟩ := ho.late σ τ w σ₁ henv hs heval hfails
    exact ⟨w', τ₁, hrun, henv₁, hkept.mono le_rfl hle, hend⟩
  early := by
    intro σ τ w σ₁ henv hs heval hfails
    obtain ⟨τ₁, hrun, henv₁, hkept⟩ := ho.early σ τ w σ₁ henv hs heval hfails
    exact ⟨τ₁, hrun, henv₁, hkept.mono le_rfl hle⟩

/-- Something that is left as it is. -/
theorem Operand.leaf (hc : covered e = true) (ha : e.canEval = true)
    (hrun : ∀ τ : Store V, run F e τ = (evalAtom F τ e, τ))
    (hfind : ∀ σ τ : Store V, (∀ s ∈ inPlaceAs true e, τ.env.find s = σ.env.find s) →
      evalAtom F τ e = evalAtom F σ e)
    (hfails : ∀ σ : Store V, evalAtom F σ e = none → failsAs F true e σ = true) :
    Operand F e n e [] n where
  le := le_rfl
  still _ := rfl
  name _ _ _ := rfl
  head s ref heq := .inr (.inl heq)
  goes := by
    intro σ τ w v σ₁ henv _ heval
    obtain ⟨hatom, hsame⟩ := @eval_canEval V F e hc ha σ
    rw [hatom, Prod.mk.injEq] at heval
    obtain ⟨hval, rfl⟩ := heval
    refine ⟨w, τ, rfl, henv, .refl _, fun ρ hvars _ => ?_⟩
    have hρ : evalAtom F ρ e = some v := by
      rw [hfind τ ρ hvars, hsame τ henv, hval]
    exact ⟨hρ, by rw [hrun, hρ]⟩
  late := by
    intro σ τ w σ₁ henv _ heval _
    obtain ⟨hatom, hsame⟩ := @eval_canEval V F e hc ha σ
    rw [hatom, Prod.mk.injEq] at heval
    obtain ⟨hval, rfl⟩ := heval
    have hτ : evalAtom F τ e = none := by rw [hsame τ henv, hval]
    exact ⟨w, τ, rfl, henv, .refl _, hτ, by rw [hrun, hτ]⟩
  early := by
    intro σ τ w σ₁ henv _ heval hnot
    obtain ⟨hatom, -⟩ := @eval_canEval V F e hc ha σ
    rw [hatom, Prod.mk.injEq] at heval
    rw [hfails σ heval.1] at hnot
    cases hnot

/-- What is assigned to a new temporary, with the statements of `h` before. -/
theorem Operand.temporary {h : List E} (hn : n < m) (hle : m ≤ n') {e₁ : E}
    (hhoists : hoistsAs true e = true)
    (hfails : ∀ σ : Store V, failsAs F true e σ = false)
    (hsame : ∀ (σ τ : Store V) (w : V), τ.env = σ.env → Steady F e σ →
      Same n n' τ.tmp (runAll F (h ++ [e₁]) w τ) (eval F e σ)) :
    Operand F e n (etsymbol (anfName m) false)
      (h ++ [etleftassign (etsymbol (anfName m) false) e₁]) n' where
  le := by omega
  still hstill := by
    rw [hhoists] at hstill
    cases hstill
  name s ref heq := by
    subst heq
    cases hhoists
  head s ref heq := by
    cases heq
    exact .inl (isTmp_anfName m)
  goes := by
    intro σ τ w v σ₁ henv hs heval
    obtain ⟨hval, henv₁, hkept⟩ := hsame σ τ w henv hs
    rw [heval] at hval henv₁
    rw [runAll_leftassign]
    cases hrun : runAll F (h ++ [e₁]) w τ with
    | mk r τ₁ =>
        rw [hrun] at hval henv₁ hkept
        cases hval
        refine ⟨v, τ₁.add (anfName m) v, rfl, ?_, ?_, ?_⟩
        · simpa [Store.add] using henv₁
        · intro k hk
          have hne : anfName k ≠ anfName m := fun heq => by
            have := anfName_inj heq
            omega
          simpa [Store.add, hne] using hkept k hk
        · intro ρ _ htmp
          have hfind : ρ.find (anfName m) = some v := by
            have := htmp m hn hle
            simpa [Store.find, Store.add] using this
          exact ⟨hfind, Prod.ext hfind rfl⟩
  late := by
    intro σ τ w σ₁ _ _ _ hlate
    rw [hfails σ] at hlate
    cases hlate
  early := by
    intro σ τ w σ₁ henv hs heval _
    obtain ⟨hval, henv₁, hkept⟩ := hsame σ τ w henv hs
    rw [heval] at hval henv₁
    rw [runAll_leftassign]
    cases hrun : runAll F (h ++ [e₁]) w τ with
    | mk r τ₁ =>
        rw [hrun] at hval henv₁ hkept
        cases hval
        exact ⟨τ₁, rfl, henv₁, hkept⟩

/-- The left side of an assignment has its value after it. -/
theorem assigned_same {h : List E} {e1 e2 la : E} (ht : target e1 = true)
    (hw : Walked F (etleftassign e1 e2) n la h n') (σ τ : Store V) (w : V) (henv : τ.env = σ.env)
    (hs : Steady F (etleftassign e1 e2) σ) :
    Same n n' τ.tmp (runAll F ((h ++ [la]) ++ [e1]) w τ) (eval F (etleftassign e1 e2) σ) := by
  obtain ⟨hval, henv₁, hkept⟩ := hw.same σ τ w henv hs
  rw [runAll_append]
  cases hrun : runAll F (h ++ [la]) w τ with
  | mk r τ₁ =>
      rw [hrun] at hval henv₁ hkept
      cases r with
      | none => exact ⟨hval, henv₁, hkept⟩
      | some v =>
          cases heval : eval F (etleftassign e1 e2) σ with
          | mk r' σ₁ =>
              rw [heval] at hval henv₁
              cases hval
              rw [eval] at heval
              obtain ⟨s, ref, rfl, hstmp, hfind⟩ := assign_eq_some ht heval
              rw [Result.andThen, runAll_singleton]
              refine ⟨?_, henv₁, hkept⟩
              show τ₁.find s = some v
              rw [find_congr hstmp henv₁, Store.find, hstmp]
              exact hfind

/-- A special assignment is put before the statement as it is. -/
theorem Operand.special {e1 e2 : E} (hc : covered (etspecialassign e1 e2) = true)
    (hn : (etspecialassign e1 e2).normal = true) :
    Operand F (etspecialassign e1 e2) n e1 [etspecialassign e1 e2] n where
  le := le_rfl
  still hstill := by simp [hoistsAs] at hstill
  name s ref heq := by cases heq
  head s ref _ := .inr (.inr rfl)
  goes := by
    intro σ τ w v σ₁ henv _ heval
    have ht : target e1 = true := by
      rw [covered, Bool.and_eq_true] at hc
      exact hc.1
    obtain ⟨hval, henv₁, hkept⟩ :=
      @run_normal V F n n (etspecialassign e1 e2) σ hc hn τ henv
    rw [heval] at hval henv₁
    refine ⟨v, (run F (etspecialassign e1 e2) τ).2, ?_, henv₁, hkept, ?_⟩
    · rw [runAll_singleton]
      exact Prod.ext hval rfl
    · rw [eval] at heval
      obtain ⟨s, ref, rfl, hstmp, hfind⟩ := specialAssign_eq_some ht heval
      intro ρ hvars _
      have hρ : ρ.find s = some v := by
        rw [Store.find, hstmp, ← hfind, ← henv₁]
        exact hvars s (by simp [inPlaceAs])
      exact ⟨hρ, Prod.ext hρ rfl⟩
  late := by
    intro σ τ w σ₁ _ _ _ hlate
    simp [failsAs] at hlate
  early := by
    intro σ τ w σ₁ henv _ heval _
    obtain ⟨hval, henv₁, hkept⟩ :=
      @run_normal V F n n (etspecialassign e1 e2) σ hc hn τ henv
    rw [heval] at hval henv₁
    refine ⟨(run F (etspecialassign e1 e2) τ).2, ?_, henv₁, hkept⟩
    rw [runAll_singleton]
    exact Prod.ext hval rfl

/-! ## Operators -/

theorem strip_cases (e : E) :
    (∃ x, e = etexprlist [x] ∧ e.strip = x) ∨ e.strip = e ∧ ∀ x, e ≠ etexprlist [x] := by
  unfold strip
  split
  · next x => exact .inl ⟨x, rfl, rfl⟩
  · next h => exact .inr ⟨rfl, fun x => h x⟩

theorem hoistsAs_strip (e : E) : hoistsAs true e.strip = hoistsAs false e := by
  rcases strip_cases e with ⟨x, rfl, hx⟩ | ⟨hstrip, hne⟩
  · rw [hx]
    rfl
  · rw [hstrip]
    cases e with
    | etexprlist el =>
        match el, hne with
        | [], _ => rfl
        | [x], hne => exact absurd rfl (hne x)
        | _ :: _ :: _, _ => rfl
    | _ => rfl

theorem inPlaceAs_strip (e : E) : inPlaceAs true e.strip = inPlaceAs false e := by
  rcases strip_cases e with ⟨x, rfl, hx⟩ | ⟨hstrip, hne⟩
  · rw [hx]
    rfl
  · rw [hstrip]
    cases e with
    | etexprlist el =>
        match el, hne with
        | [], _ => rfl
        | [x], hne => exact absurd rfl (hne x)
        | _ :: _ :: _, _ => rfl
    | etspecialassign e1 e2 => cases e1 <;> rfl
    | _ => rfl

theorem failsAs_strip (e : E) (σ : Store V) : failsAs F true e.strip σ = failsAs F false e σ := by
  rcases strip_cases e with ⟨x, rfl, hx⟩ | ⟨hstrip, hne⟩
  · rw [hx]
    rfl
  · rw [hstrip]
    cases e with
    | etexprlist el =>
        match el, hne with
        | [], _ => rfl
        | [x], hne => exact absurd rfl (hne x)
        | _ :: _ :: _, _ => rfl
    | _ => rfl

/-- What an operator stands for when its operands have been evaluated. -/
theorem evalAtom_binop {op : Nat} {l r a : E} {v w x : V} (hl : evalAtom F ρ l = some v)
    (hr : evalAtom F ρ r = some w) (ha : evalAtom F ρ a = some x) :
    evalAtom F ρ (etbinop op l r a) = F.evalbinop op v w x := by
  rw [evalAtom, hl, hr, ha]
  rfl

theorem evalAtom_binop_none {op : Nat} {l r a : E}
    (h : evalAtom F ρ l = none ∨ evalAtom F ρ r = none ∨ evalAtom F ρ a = none) :
    evalAtom F ρ (etbinop op l r a) = none := by
  rw [evalAtom]
  rcases h with h | h | h
  · rw [h]
    rfl
  · rw [h]
    cases evalAtom F ρ l <;> rfl
  · rw [h]
    cases evalAtom F ρ l with
    | none => rfl
    | some v => cases evalAtom F ρ r <;> rfl

theorem run_binop (op : Nat) (l r a : E) (ρ : Store V) :
    run F (etbinop op l r a) ρ = (evalAtom F ρ (etbinop op l r a), ρ) := rfl

/-- After the statements of the operands, each operand has its value. -/
theorem operands_go {op n₁ n₂ : Nat} {left right attrib l r a : E} {h₁ h₂ h₃ : List E}
    (hl : Operand F left.strip n l h₁ n₁) (hr : Operand F right.strip n₁ r h₂ n₂)
    (ha : Operand F attrib.strip n₂ a h₃ n') {σ₁ σ₂ σ₃ : Store V} {v w x : V}
    (henv : τ.env = σ.env) (hs : Steady F (etbinop op left right attrib) σ)
    (hv : eval F left σ = (some v, σ₁)) (hw : eval F right σ₁ = (some w, σ₂))
    (hx : eval F attrib σ₂ = (some x, σ₃)) (u : V) :
    ∃ u' τ₃, runAll F (h₁ ++ (h₂ ++ h₃)) u τ = (some u', τ₃) ∧ τ₃.env = σ₃.env ∧
      Kept n n' τ.tmp τ₃.tmp ∧
      ∀ ρ : Store V, (∀ s ∈ inPlaceAs true (etbinop op left right attrib),
        ρ.env.find s = τ₃.env.find s) →
        (∀ k, n < k → k ≤ n' → ρ.tmp (anfName k) = τ₃.tmp (anfName k)) →
        evalAtom F ρ (etbinop op l r a) = F.evalbinop op v w x := by
  obtain ⟨hsl, -, hs⟩ := hs
  rw [hv] at hs
  obtain ⟨hsr, -, hs⟩ := hs
  rw [hw] at hs
  obtain ⟨hsa, hs⟩ := hs
  rw [hx] at hs
  obtain ⟨hleft, hright⟩ := hs
  obtain ⟨u₁, τ₁, hrun₁, henv₁, hkept₁, hset₁⟩ :=
    hl.goes σ τ u v σ₁ henv (steady_strip hsl) (by rw [eval_strip, hv])
  obtain ⟨u₂, τ₂, hrun₂, henv₂, hkept₂, hset₂⟩ :=
    hr.goes σ₁ τ₁ u₁ w σ₂ henv₁ (steady_strip hsr) (by rw [eval_strip, hw])
  obtain ⟨u₃, τ₃, hrun₃, henv₃, hkept₃, hset₃⟩ :=
    ha.goes σ₂ τ₂ u₂ x σ₃ henv₂ (steady_strip hsa) (by rw [eval_strip, hx])
  have hle₁ := hl.le
  have hle₂ := hr.le
  have hle₃ := ha.le
  refine ⟨u₃, τ₃, ?_, henv₃, ?_, fun ρ hvars htmp => ?_⟩
  · rw [runAll_append, hrun₁, Result.andThen, runAll_append, hrun₂, Result.andThen, hrun₃]
  · exact ((hkept₁.mono le_rfl (hle₂.trans hle₃)).trans (hkept₂.mono hle₁ hle₃)).trans
      (hkept₃.mono (hle₁.trans hle₂) le_rfl)
  · simp only [inPlaceAs, List.forall_mem_append, ← inPlaceAs_strip] at hvars hleft hright
    -- the temporaries of an operand are not among those of the next
    refine evalAtom_binop (hset₁ ρ (fun s hmem => ?_) fun k hk hk' => ?_).1
      (hset₂ ρ (fun s hmem => ?_) fun k hk hk' => ?_).1
      (hset₃ ρ hvars.2.2 fun k hk hk' => htmp k (by omega) hk').1
    · rw [hvars.1 s hmem, henv₃, hleft s hmem, henv₁]
    · rw [htmp k hk (by omega), hkept₃ k (.inl (by omega)), hkept₂ k (.inl hk')]
    · rw [hvars.2.1 s hmem, henv₃, hright s hmem, henv₂]
    · rw [htmp k (by omega) (by omega), hkept₃ k (.inl hk')]


/-- An operator fails where its first operand to fail does, or in the end. -/
theorem operands_fail {op n₁ n₂ : Nat} {left right attrib l r a : E} {h₁ h₂ h₃ : List E}
    (hl : Operand F left.strip n l h₁ n₁) (hr : Operand F right.strip n₁ r h₂ n₂)
    (ha : Operand F attrib.strip n₂ a h₃ n') {σ' : Store V} (henv : τ.env = σ.env)
    (hs : Steady F (etbinop op left right attrib) σ)
    (heval : eval F (etbinop op left right attrib) σ = (none, σ')) (u : V) :
    ∃ u' τ', runAll F (h₁ ++ (h₂ ++ h₃)) u τ = (u', τ') ∧ τ'.env = σ'.env ∧
      Kept n n' τ.tmp τ'.tmp ∧
      if failsAs F true (etbinop op left right attrib) σ = true then
        u'.isSome ∧ evalAtom F τ' (etbinop op l r a) = none
      else u' = none := by
  have hle₁ := hl.le
  have hle₂ := hr.le
  have hle₃ := ha.le
  obtain ⟨hsl, hlate, hs₁⟩ := id hs
  cases hv : eval F left σ with
  | mk v σ₁ =>
  cases v with
  | none =>
      have heq : σ₁ = σ' := by simpa [eval, hv] using heval
      subst heq
      have hfails : failsAs F true (etbinop op left right attrib) σ = failsAs F false left σ := by
        rw [failsAs, hv]
      rw [hfails, runAll_append]
      have hv' : eval F left.strip σ = (none, σ₁) := by rw [eval_strip, hv]
      split
      · next hf =>
          obtain ⟨hr', ha'⟩ := hlate hf
          have hr' : h₂ = [] := hr.still (by rw [hoistsAs_strip, hr'])
          have ha' : h₃ = [] := ha.still (by rw [hoistsAs_strip, ha'])
          obtain ⟨u₁, τ₁, hrun₁, henv₁, hkept₁, hatom₁, -⟩ :=
            hl.late σ τ u σ₁ henv (steady_strip hsl) hv' (by rw [failsAs_strip, hf])
          refine ⟨some u₁, τ₁, ?_, henv₁, hkept₁.mono le_rfl (hle₂.trans hle₃), rfl, ?_⟩
          · rw [hrun₁, hr', ha']
            rfl
          · exact evalAtom_binop_none (.inl hatom₁)
      · next hf =>
          obtain ⟨τ₁, hrun₁, henv₁, hkept₁⟩ :=
            hl.early σ τ u σ₁ henv (steady_strip hsl) hv' (by rw [failsAs_strip]; simpa using hf)
          refine ⟨none, τ₁, ?_, henv₁, hkept₁.mono le_rfl (hle₂.trans hle₃), rfl⟩
          rw [hrun₁]
          rfl
  | some v =>
  rw [hv] at hs₁
  obtain ⟨hsr, hlate₁, hs₂⟩ := hs₁
  obtain ⟨u₁, τ₁, hrun₁, henv₁, hkept₁, hset₁⟩ :=
    hl.goes σ τ u v σ₁ henv (steady_strip hsl) (by rw [eval_strip, hv])
  cases hw : eval F right σ₁ with
  | mk w σ₂ =>
  cases w with
  | none =>
      have heq : σ₂ = σ' := by simpa [eval, hv, hw] using heval
      subst heq
      have hfails : failsAs F true (etbinop op left right attrib) σ = failsAs F false right σ₁ := by
        rw [failsAs, hv]
        simp only [hw]
      rw [hfails, runAll_append, hrun₁, Result.andThen, runAll_append]
      have hw' : eval F right.strip σ₁ = (none, σ₂) := by rw [eval_strip, hw]
      have hkept : ∀ {τ₂ : Store V}, Kept n₁ n₂ τ₁.tmp τ₂.tmp → Kept n n' τ.tmp τ₂.tmp :=
        fun hk => (hkept₁.mono le_rfl (hle₂.trans hle₃)).trans (hk.mono hle₁ hle₃)
      split
      · next hf =>
          have ha' : h₃ = [] := ha.still (by rw [hoistsAs_strip, hlate₁ hf])
          obtain ⟨u₂, τ₂, hrun₂, henv₂, hkept₂, hatom₂, -⟩ :=
            hr.late σ₁ τ₁ u₁ σ₂ henv₁ (steady_strip hsr) hw' (by rw [failsAs_strip, hf])
          refine ⟨some u₂, τ₂, ?_, henv₂, hkept hkept₂, rfl, ?_⟩
          · rw [hrun₂, ha']
            rfl
          · exact evalAtom_binop_none (.inr (.inl hatom₂))
      · next hf =>
          obtain ⟨τ₂, hrun₂, henv₂, hkept₂⟩ :=
            hr.early σ₁ τ₁ u₁ σ₂ henv₁ (steady_strip hsr) hw'
              (by rw [failsAs_strip]; simpa using hf)
          refine ⟨none, τ₂, ?_, henv₂, hkept hkept₂, rfl⟩
          rw [hrun₂]
          rfl
  | some w =>
  rw [hw] at hs₂
  obtain ⟨hsa, -⟩ := hs₂
  obtain ⟨u₂, τ₂, hrun₂, henv₂, hkept₂, hset₂⟩ :=
    hr.goes σ₁ τ₁ u₁ w σ₂ henv₁ (steady_strip hsr) (by rw [eval_strip, hw])
  cases hx : eval F attrib σ₂ with
  | mk x σ₃ =>
  cases x with
  | none =>
      have heq : σ₃ = σ' := by simpa [eval, hv, hw, hx] using heval
      subst heq
      have hfails : failsAs F true (etbinop op left right attrib) σ =
          failsAs F false attrib σ₂ := by
        rw [failsAs, hv]
        simp only [hw, hx]
      rw [hfails, runAll_append, hrun₁, Result.andThen, runAll_append, hrun₂, Result.andThen]
      have hx' : eval F attrib.strip σ₂ = (none, σ₃) := by rw [eval_strip, hx]
      have hkept : ∀ {τ₃ : Store V}, Kept n₂ n' τ₂.tmp τ₃.tmp → Kept n n' τ.tmp τ₃.tmp :=
        fun hk => ((hkept₁.mono le_rfl (hle₂.trans hle₃)).trans (hkept₂.mono hle₁ hle₃)).trans
          (hk.mono (hle₁.trans hle₂) le_rfl)
      split
      · next hf =>
          obtain ⟨u₃, τ₃, hrun₃, henv₃, hkept₃, hatom₃, -⟩ :=
            ha.late σ₂ τ₂ u₂ σ₃ henv₂ (steady_strip hsa) hx' (by rw [failsAs_strip, hf])
          exact ⟨some u₃, τ₃, hrun₃, henv₃, hkept hkept₃, rfl,
            evalAtom_binop_none (.inr (.inr hatom₃))⟩
      · next hf =>
          obtain ⟨τ₃, hrun₃, henv₃, hkept₃⟩ :=
            ha.early σ₂ τ₂ u₂ σ₃ henv₂ (steady_strip hsa) hx'
              (by rw [failsAs_strip]; simpa using hf)
          exact ⟨none, τ₃, hrun₃, henv₃, hkept hkept₃, rfl⟩
  | some x =>
      have hop : F.evalbinop op v w x = none ∧ σ₃ = σ' := by simpa [eval, hv, hw, hx] using heval
      obtain ⟨hnone, rfl⟩ := hop
      have hfails : failsAs F true (etbinop op left right attrib) σ = true := by
        rw [failsAs, hv]
        simp [hw, hx, hnone]
      obtain ⟨u₃, τ₃, hrun, henv₃, hkept, hset⟩ := operands_go hl hr ha henv hs hv hw hx u
      refine ⟨some u₃, τ₃, hrun, henv₃, hkept, ?_⟩
      rw [if_pos hfails]
      refine ⟨rfl, ?_⟩
      rw [hset τ₃ (fun _ _ => rfl) fun _ _ _ => rfl, hnone]

/-- The operands of an operator. What is hoisted from the right leaves what is in place on
the left as it was. -/
theorem Operand.binop {op n₁ n₂ : Nat} {left right attrib l r a : E} {h₁ h₂ h₃ : List E}
    (hl : Operand F left.strip n l h₁ n₁) (hr : Operand F right.strip n₁ r h₂ n₂)
    (ha : Operand F attrib.strip n₂ a h₃ n') :
    Operand F (etbinop op left right attrib) n (etbinop op l r a) (h₁ ++ (h₂ ++ h₃)) n' where
  le := hl.le.trans (hr.le.trans ha.le)
  still hstill := by
    simp only [hoistsAs, Bool.or_eq_false_iff, ← hoistsAs_strip] at hstill
    rw [hl.still hstill.1, hr.still hstill.2.1, ha.still hstill.2.2]
    rfl
  name s ref heq := by cases heq
  head s ref heq := by cases heq
  goes := by
    intro σ τ u y σ' henv hs heval
    rw [eval] at heval
    split at heval
    · next v σ₁ hv =>
        split at heval
        · next w σ₂ hw =>
            split at heval
            · next x σ₃ hx =>
                rw [Prod.mk.injEq] at heval
                obtain ⟨hop, rfl⟩ := heval
                obtain ⟨u', τ₃, hrun, henv₃, hkept, hset⟩ :=
                  operands_go hl hr ha henv hs hv hw hx u
                refine ⟨u', τ₃, hrun, henv₃, hkept, fun ρ hvars htmp => ?_⟩
                have hρ := (hset ρ hvars htmp).trans hop
                exact ⟨hρ, by rw [run_binop, hρ]⟩
            · cases heval
        · cases heval
    · cases heval
  late := by
    intro σ τ u σ' henv hs heval hf
    obtain ⟨u', τ', hrun, henv', hkept, hend⟩ := operands_fail hl hr ha henv hs heval u
    rw [if_pos hf] at hend
    obtain ⟨u₁, rfl⟩ := Option.isSome_iff_exists.1 hend.1
    exact ⟨u₁, τ', hrun, henv', hkept, hend.2, by rw [run_binop, hend.2]⟩
  early := by
    intro σ τ u σ' henv hs heval hf
    obtain ⟨u', τ', hrun, henv', hkept, hend⟩ := operands_fail hl hr ha henv hs heval u
    rw [if_neg (by simp [hf])] at hend
    subst hend
    exact ⟨τ', hrun, henv', hkept⟩

end Ztsdb.Lang
