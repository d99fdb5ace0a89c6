import Mathlib
import Ztsdb.Lang.Steady

/-!
# Two runs side by side

A program that is run and one that is evaluated, or run in another form, do the same when
they end with the same value or error and the same variables. The temporaries may differ,
in a range of numbers. Assignments, lists and calls of things that do the same do the same,
and what is normal as it is written is run as it is evaluated.
-/

namespace Ztsdb.Lang

open E

/-! ## Temporaries -/

/-- The name of the `n`-th temporary. -/
def anfName (n : Nat) : String := "?anf" ++ toString n

@[simp] theorem isTmp_anfName (n : Nat) : isTmp (anfName n) = true := by
  simp [isTmp, anfName, String.toList_append]

theorem anfName_inj {m n : Nat} (h : anfName m = anfName n) : m = n := by
  have hlist : (toString m).toList = (toString n).toList := by
    have := congrArg String.toList h
    simpa [anfName, String.toList_append] using this
  exact Nat.repr_injective (String.toList_inj.1 hlist)

variable {V : Type} {F : Prims V} {σ τ ρ τ' : Store V} {e e' : E} {el : List E} {n n' m : Nat}

/-- The temporaries keep their values, those of a range aside. -/
def Kept (n n' : Nat) (tmp tmp' : String → Option V) : Prop :=
  ∀ k, k ≤ n ∨ n' < k → tmp' (anfName k) = tmp (anfName k)

theorem Kept.refl (tmp : String → Option V) : Kept n n' tmp tmp := fun _ _ => rfl

theorem Kept.trans {tmp₁ tmp₂ tmp₃ : String → Option V} (h₁ : Kept n n' tmp₁ tmp₂)
    (h₂ : Kept n n' tmp₂ tmp₃) : Kept n n' tmp₁ tmp₃ :=
  fun k hk => (h₂ k hk).trans (h₁ k hk)

theorem Kept.mono {n₁ n₁' : Nat} {tmp tmp' : String → Option V} (h : Kept n₁ n₁' tmp tmp')
    (hle : n ≤ n₁) (hle' : n₁' ≤ n') : Kept n n' tmp tmp' :=
  fun k hk => h k (by omega)

/-- The same value or error and the same variables, from a store with the temporaries
`tmp`. -/
structure Same (n n' : Nat) (tmp : String → Option V) (r r' : Result V) : Prop where
  val : r.1 = r'.1
  env : r.2.env = r'.2.env
  kept : Kept n n' tmp r.2.tmp

theorem Same.mono {n₁ n₁' : Nat} {tmp : String → Option V} {r r' : Result V}
    (h : Same n₁ n₁' tmp r r') (hle : n ≤ n₁) (hle' : n₁' ≤ n') : Same n n' tmp r r' :=
  ⟨h.val, h.env, h.kept.mono hle hle'⟩

/-- What goes on in the same way stays the same. -/
theorem Same.andThen {tmp : String → Option V} {r r' : Result V} {k k' : V → Store V → Result V}
    (h : Same n n' tmp r r')
    (hk : ∀ v σ τ, r' = (some v, σ) → τ.env = σ.env → Same n n' τ.tmp (k v τ) (k' v σ)) :
    Same n n' tmp (r.andThen k) (r'.andThen k') := by
  obtain ⟨v, τ⟩ := r
  obtain ⟨v', σ⟩ := r'
  obtain ⟨rfl, henv, hkept⟩ := h
  cases v with
  | none => exact ⟨rfl, henv, hkept⟩
  | some v =>
      obtain ⟨hval', henv', hkept'⟩ := hk v σ τ rfl henv
      exact ⟨hval', henv', hkept.trans hkept'⟩

/-! ## Statements in a row -/

theorem evalAll_cons (e : E) (el : List E) (v : V) (σ : Store V) :
    evalAll F (e :: el) v σ = (eval F e σ).andThen (evalAll F el) := rfl

theorem runAll_cons (e : E) (el : List E) (v : V) (σ : Store V) :
    runAll F (e :: el) v σ = (run F e σ).andThen (runAll F el) := rfl

theorem runAll_append (a b : List E) (v : V) (σ : Store V) :
    runAll F (a ++ b) v σ = (runAll F a v σ).andThen (runAll F b) := by
  induction a generalizing v σ with
  | nil => rfl
  | cons e a ih =>
      rw [List.cons_append, runAll_cons, runAll_cons]
      cases hrun : run F e σ with
      | mk r σ' =>
          cases r with
          | none => rfl
          | some w => exact ih w σ'

@[simp] theorem runAll_singleton (e : E) (v : V) (σ : Store V) :
    runAll F [e] v σ = run F e σ := by
  rw [runAll_cons]
  cases hrun : run F e σ with
  | mk r σ' => cases r <;> rfl

@[simp] theorem evalAll_singleton (e : E) (v : V) (σ : Store V) :
    evalAll F [e] v σ = eval F e σ := by
  rw [evalAll_cons]
  cases heval : eval F e σ with
  | mk r σ' => cases r <;> rfl

theorem run_strip (e : E) (σ : Store V) : run F e.strip σ = run F e σ := by
  unfold strip
  split
  · exact (runAll_singleton _ _ _).symm
  · rfl

theorem eval_strip (e : E) (σ : Store V) : eval F e.strip σ = eval F e σ := by
  unfold strip
  split
  · exact (evalAll_singleton _ _ _).symm
  · rfl

theorem steady_strip (h : Steady F e σ) : Steady F e.strip σ := by
  unfold strip
  split
  · exact h.1
  · exact h

theorem covered_strip (h : covered e = true) : covered e.strip = true := by
  unfold strip
  split
  · simpa [covered, coveredAll] using h
  · exact h

/-- An assignment of what a list of statements ends in. -/
theorem runAll_leftassign (h : List E) (e1 e2 : E) (v : V) (σ : Store V) :
    runAll F (h ++ [etleftassign e1 e2]) v σ = assign e1 (runAll F (h ++ [e2]) v σ) := by
  rw [runAll_append, runAll_append]
  cases hrun : runAll F h v σ with
  | mk r σ' =>
      cases r with
      | none => rfl
      | some w => simp [Result.andThen, run]

theorem runAll_specialassign (h : List E) (e1 e2 : E) (v : V) (σ : Store V) :
    runAll F (h ++ [etspecialassign e1 e2]) v σ =
      specialAssign e1 (runAll F (h ++ [e2]) v σ) := by
  rw [runAll_append, runAll_append]
  cases hrun : runAll F h v σ with
  | mk r σ' =>
      cases r with
      | none => rfl
      | some w => simp [Result.andThen, run]

/-! ## Variables and assignments -/

theorem find_congr {s : String} (hs : isTmp s = false) (henv : τ.env = σ.env) :
    τ.find s = σ.find s := by
  simp [Store.find, hs, henv]

theorem assign_same {tmp : String → Option V} {e1 : E} {r r' : Result V} (ht : target e1 = true)
    (h : Same n n' tmp r r') : Same n n' tmp (assign e1 r) (assign e1 r') := by
  refine h.andThen fun v σ τ _ henv => ?_
  cases e1 with
  | etsymbol s ref =>
      have hs : isTmp s = false := by simpa [target] using ht
      show Same n n' τ.tmp (some v, τ.add s v) (some v, σ.add s v)
      rw [Store.add, Store.add, if_neg (by simp [hs]), if_neg (by simp [hs])]
      exact ⟨rfl, congrArg (Env.add · s v) henv, .refl _⟩
  | _ => exact ⟨rfl, henv, .refl _⟩

theorem specialAssign_same {tmp : String → Option V} {e1 : E} {r r' : Result V}
    (h : Same n n' tmp r r') : Same n n' tmp (specialAssign e1 r) (specialAssign e1 r') := by
  refine h.andThen fun v σ τ _ henv => ?_
  cases e1 with
  | etsymbol s ref => exact ⟨rfl, congrArg (Env.addSpecial · s v) henv, .refl _⟩
  | _ => exact ⟨rfl, henv, .refl _⟩

/-- What is assigned is found. -/
theorem assign_eq_some {e1 : E} {r : Result V} {v : V} (ht : target e1 = true)
    (h : assign e1 r = (some v, σ)) :
    ∃ s ref, e1 = etsymbol s ref ∧ isTmp s = false ∧ σ.env.find s = some v := by
  obtain ⟨w, τ⟩ := r
  cases w with
  | none => simp [assign, Result.andThen] at h
  | some w =>
      cases e1 with
      | etsymbol s ref =>
          have hs : isTmp s = false := by simpa [target] using ht
          simp only [assign, Result.andThen, Store.add, hs, Prod.mk.injEq, Option.some.injEq] at h
          obtain ⟨rfl, rfl⟩ := h
          exact ⟨s, ref, rfl, hs, by simp⟩
      | _ => simp [assign, Result.andThen] at h

theorem specialAssign_eq_some {e1 : E} {r : Result V} {v : V} (ht : target e1 = true)
    (h : specialAssign e1 r = (some v, σ)) :
    ∃ s ref, e1 = etsymbol s ref ∧ isTmp s = false ∧ σ.env.find s = some v := by
  obtain ⟨w, τ⟩ := r
  cases w with
  | none => simp [specialAssign, Result.andThen] at h
  | some w =>
      cases e1 with
      | etsymbol s ref =>
          have hs : isTmp s = false := by simpa [target] using ht
          simp only [specialAssign, Result.andThen, Store.addSpecial, Prod.mk.injEq,
            Option.some.injEq] at h
          obtain ⟨rfl, rfl⟩ := h
          exact ⟨s, ref, rfl, hs, by simp⟩
      | _ => simp [specialAssign, Result.andThen] at h

/-! ## Calls -/

/-- A call does the same when the evaluations of its arguments do. -/
theorem Body.run_same {arg arg' : Nat → Store V → Result V} {P : Nat → Store V → Prop}
    (harg : ∀ i σ τ, τ.env = σ.env → P i σ → Same n n' τ.tmp (arg' i τ) (arg i σ))
    (b : Body V) (tmp tmp' : String → Option V) (hb : b.Always arg P tmp) :
    Same n n' tmp' (b.run arg' tmp') (b.run arg tmp) := by
  induction b generalizing tmp tmp' with
  | done r env => exact ⟨rfl, rfl, .refl _⟩
  | arg i env k ih =>
      obtain ⟨hP, hrest⟩ := hb
      obtain ⟨hval, henv, hkept⟩ := harg i ⟨env, tmp⟩ ⟨env, tmp'⟩ rfl hP
      rw [Body.run, Body.run, hval, henv]
      have hk := ih _ _ _ (arg' i ⟨env, tmp'⟩).2.tmp hrest
      exact ⟨hk.val, hk.env, hkept.trans hk.kept⟩

theorem Body.always_true {arg : Nat → Store V → Result V} (b : Body V)
    (tmp : String → Option V) : b.Always arg (fun _ _ => True) tmp := by
  induction b generalizing tmp with
  | done r env => trivial
  | arg i env k ih => exact ⟨trivial, ih _ _ _⟩

theorem eval_funcall (e : E) (el : List E) (σ : Store V) :
    eval F (etfuncall e el) σ = (headOf F e σ).andThen fun f σ =>
      (F.call f (el.map argName) σ.env).run (fun i σ => evalArg F el i σ) σ.tmp := rfl

/-- A call whose head and arguments have been normalised. -/
theorem call_same {el' : List E} {f : Option V} {P : Nat → Store V → Prop}
    (hhead : evalHead F τ e' = f) (henv : τ.env = σ.env)
    (hnames : el'.map argName = el.map argName)
    (hargs : ∀ i σ τ, τ.env = σ.env → P i σ →
      Same n n' τ.tmp (runArg F el' i τ) (evalArg F el i σ))
    (halways : ∀ v, f = some v → (F.call v (el.map argName) σ.env).Always
      (fun i σ => evalArg F el i σ) P σ.tmp) :
    Same n n' τ.tmp (run F (etfuncall e' el') τ)
      (Result.andThen (f, σ) fun f σ =>
        (F.call f (el.map argName) σ.env).run (fun i σ => evalArg F el i σ) σ.tmp) := by
  rw [run, hhead]
  cases f with
  | none => exact ⟨rfl, henv, .refl _⟩
  | some v =>
      simp only [hnames, henv]
      exact Body.run_same hargs _ _ _ (halways v rfl)

/-! ## What needs no normalisation -/

/-- An atom of a covered program is evaluated without an effect, whatever the temporaries. -/
theorem eval_canEval (hc : covered e = true) (ha : e.canEval = true) (σ : Store V) :
    eval F e σ = (evalAtom F σ e, σ) ∧ ∀ τ : Store V, τ.env = σ.env →
      evalAtom F τ e = evalAtom F σ e := by
  induction e using canEval.induct with
  | case1 => exact ⟨rfl, fun _ _ => rfl⟩
  | case2 data => exact ⟨rfl, fun _ _ => rfl⟩
  | case3 s ref => exact ⟨rfl, fun τ henv => find_congr (by simpa [covered] using hc) henv⟩
  | case4 s => cases hc
  | case5 formlist body => cases hc
  | case6 op e ih =>
      obtain ⟨heval, hatom⟩ := ih hc ha
      constructor
      · rw [eval, heval, evalAtom]
        cases evalAtom F σ e <;> rfl
      · intro τ henv
        rw [evalAtom, evalAtom, hatom τ henv]
  | case7 op left right attrib ihl ihr iha =>
      simp only [covered, canEval, Bool.and_eq_true] at hc ha
      obtain ⟨hl, hlatom⟩ := ihl hc.1 ha.1
      obtain ⟨hr, hratom⟩ := ihr hc.2.1 ha.2.1
      obtain ⟨hat, haatom⟩ := iha hc.2.2 ha.2.2
      constructor
      · rw [eval, hl, evalAtom]
        cases evalAtom F σ left with
        | none => rfl
        | some v =>
            simp only [hr, Option.bind_some]
            cases evalAtom F σ right with
            | none => rfl
            | some w =>
                simp only [hat, Option.bind_some]
                cases evalAtom F σ attrib <;> rfl
      · intro τ henv
        rw [evalAtom, evalAtom, hlatom τ henv, hratom τ henv, haatom τ henv]
  | case8 e => simp [canEval] at ha

/-- A head that is an atom is looked up in the same way. -/
theorem evalHead_canEval (hc : covered e = true) (ha : e.canEval = true) (henv : τ.env = σ.env) :
    evalHead F τ e = (headOf F e σ).1 ∧ (headOf F e σ).2 = σ := by
  obtain ⟨heval, hatom⟩ := @eval_canEval V F e hc ha σ
  cases e with
  | etsymbol s ref =>
      have hs : isTmp s = false := by simpa [covered] using hc
      refine ⟨?_, rfl⟩
      simp [evalHead, headOf, funName, strip, Store.findFun, hs, henv]
  | etnull | literal | etunop | etbinop =>
      simp only [headOf, funName, strip, evalHead, heval, hatom τ henv, and_self]
  | _ => first | cases hc | cases ha

/-- What is to be shown of an expression that is run as it is. -/
def RunsAs (F : Prims V) (e e' : E) (n n' : Nat) (σ : Store V) : Prop :=
  ∀ τ : Store V, τ.env = σ.env → Same n n' τ.tmp (run F e' τ) (eval F e σ)

theorem run_of_canEval (hc : covered e = true) (ha : e.canEval = true)
    (hrun : ∀ τ : Store V, run F e τ = (evalAtom F τ e, τ)) : RunsAs F e e n n' σ := by
  intro τ henv
  obtain ⟨heval, hatom⟩ := @eval_canEval V F e hc ha σ
  rw [hrun, heval, hatom τ henv]
  exact ⟨rfl, henv, .refl _⟩

/-- What is normal already is run in the order it is written in. -/
theorem run_normal (e : E) : ∀ σ : Store V, covered e = true → e.normal = true →
    RunsAs F e e n n' σ := by
  induction hk : sizeOf e using Nat.strong_induction_on generalizing e with
  | _ k ih =>
  intro σ hc hn τ henv
  cases e with
  | etnull | literal => exact ⟨rfl, henv, .refl _⟩
  | etsymbol s ref => exact run_of_canEval hc rfl (fun _ => rfl) τ henv
  | etunop op e =>
      simp only [normal, Bool.and_eq_true] at hn
      exact run_of_canEval hc (by simpa [canEval] using hn.1) (fun _ => rfl) τ henv
  | etbinop op left right attrib =>
      simp only [normal, Bool.and_eq_true] at hn
      exact run_of_canEval hc (by simp [canEval, hn]) (fun _ => rfl) τ henv
  | etleftassign e1 e2 =>
      simp only [covered, normal, Bool.and_eq_true] at hc hn
      rw [run, eval]
      exact assign_same hc.1 (ih _ (by rw [← hk]; simp) e2 rfl σ hc.2 hn.2 τ henv)
  | etspecialassign e1 e2 =>
      simp only [covered, normal, Bool.and_eq_true] at hc hn
      rw [run, eval]
      exact specialAssign_same (ih _ (by rw [← hk]; simp) e2 rfl σ hc.2 hn.2 τ henv)
  | etexprlist el =>
      have hall : ∀ (el : List E), sizeOf el < k → coveredAll el = true → normals el = true →
          ∀ (v : V) (σ τ : Store V), τ.env = σ.env →
            Same n n' τ.tmp (runAll F el v τ) (evalAll F el v σ) := by
        intro el
        induction el with
        | nil => exact fun _ _ _ v σ τ henv => ⟨rfl, henv, .refl _⟩
        | cons e el ihel =>
            intro hlt hc hn v σ τ henv
            simp only [coveredAll, normals, Bool.and_eq_true] at hc hn
            simp only [List.cons.sizeOf_spec] at hlt
            rw [runAll_cons, evalAll_cons]
            refine (ih _ (by omega) e rfl σ hc.1 hn.1 τ henv).andThen fun w σ' τ' _ henv' => ?_
            exact ihel (by omega) hc.2 hn.2 w σ' τ' henv'
      rw [run, eval]
      exact hall el (by rw [← hk]; simp) hc hn F.null σ τ henv
  | etifelse e1 e2 e3 =>
      simp only [covered, normal, Bool.and_eq_true] at hc hn
      obtain ⟨heval, hatom⟩ := @eval_canEval V F e1 hc.1 hn.1.1 σ
      rw [run, eval, heval, hatom τ henv]
      cases evalAtom F σ e1 with
      | none => exact ⟨rfl, henv, .refl _⟩
      | some v =>
          simp only [Option.bind_some]
          cases F.isTrue v with
          | none => exact ⟨rfl, henv, .refl _⟩
          | some b =>
              cases b with
              | true => exact ih _ (by rw [← hk]; simp; omega) e2 rfl σ hc.2.1 hn.2.1 τ henv
              | false => exact ih _ (by rw [← hk]; simp) e3 rfl σ hc.2.2 hn.2.2 τ henv
  | etfuncall e el =>
      simp only [covered, normal, Bool.and_eq_true] at hc hn
      have harg : ∀ (el : List E), sizeOf el < k → coveredArgs el = true → normals el = true →
          ∀ (i : Nat) (σ τ : Store V), τ.env = σ.env →
            Same n n' τ.tmp (runArg F el i τ) (evalArg F el i σ) := by
        intro el
        induction el with
        | nil => exact fun _ _ _ i σ τ henv => ⟨rfl, henv, .refl _⟩
        | cons e el ihel =>
            intro hlt hc hn i σ τ henv
            simp only [normals, Bool.and_eq_true] at hn
            simp only [List.cons.sizeOf_spec] at hlt
            cases e with
            | ettaggedexpr symb ref e =>
                simp only [coveredArgs, Bool.and_eq_true] at hc
                simp only [ettaggedexpr.sizeOf_spec] at hlt
                cases i with
                | zero => exact ih _ (by omega) e rfl σ hc.1 hn.1 τ henv
                | succ i => exact ihel (by omega) hc.2 hn.2 i σ τ henv
            | etarg ref e =>
                simp only [coveredArgs, Bool.and_eq_true] at hc
                simp only [etarg.sizeOf_spec] at hlt
                cases i with
                | zero => exact ih _ (by omega) e rfl σ hc.1 hn.1 τ henv
                | succ i => exact ihel (by omega) hc.2 hn.2 i σ τ henv
            | _ => cases hc
      obtain ⟨hhead, hstore⟩ := @evalHead_canEval V F σ τ e hc.1 hn.1.1 henv
      have heq : headOf F e σ = ((headOf F e σ).1, σ) := Prod.ext rfl hstore
      rw [eval_funcall, heq]
      refine call_same hhead henv rfl (P := fun _ _ => True) (fun i σ τ henv _ => ?_)
        fun v _ => Body.always_true _ _
      exact harg el (by rw [← hk]; simp) hc.2 hn.2 i σ τ henv
  | _ => cases hc

end Ztsdb.Lang
