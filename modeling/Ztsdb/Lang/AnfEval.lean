import Mathlib
import Ztsdb.Lang.AnfOperand

/-!
# Normalisation and evaluation

A steady program gives the same value and leaves the same variables when it is normalised
and then run: one case for each kind of node, on top of what holds of its operands.
-/

namespace Ztsdb.Lang

open Anf E

variable {V : Type} {F : Prims V} {σ τ ρ τ' : Store V} {e e' : E} {el : List E} {n n' m : Nat}

/-! ## The walks of the parts -/

variable {doBndVar : Bool}

/-- What is to be shown of every expression. -/
def Walks (F : Prims V) (doBndVar : Bool) (e : E) : Prop :=
  covered e = true → converts doBndVar e = true → ∀ n,
    Ends (norm doBndVar e) n (Walked F e n) ∧
      (isAtomic e = true → Ends (norm doBndVar e) n (Operand F e n))

/-- What is no atom is hoisted, and then nothing in place can fail. -/
theorem hoists_of_not_atomic (hc : covered e = true) (hatom : ¬isAtomic e = true) :
    hoistsAs true e = true ∧ ∀ σ : Store V, failsAs F true e σ = false := by
  cases e with
  | etunop | etexprlist | etifelse | etfuncall | etleftassign | etspecialassign =>
      simp [hoistsAs, failsAs]
  | _ => first | exact absurd rfl hatom | cases hc

theorem normStripped_ends (he : Walks F doBndVar e) (hc : covered e = true)
    (hn : named e (converts doBndVar e) = true) :
    Ends (normStripped doBndVar e) n (Operand F e n) := by
  by_cases h1 : ∃ e1 e2, e = etleftassign e1 e2
  · obtain ⟨e1, e2, rfl⟩ := h1
    have ht : target e1 = true := by
      rw [covered, Bool.and_eq_true] at hc
      exact hc.1
    rw [normStripped]
    refine ends_bind ((he hc hn n).1.mono fun la h n₁ hw => ?_)
    refine ends_bind (ends_addafter (ends_bind (ends_gensym ?_)))
    refine ends_bind (ends_addafter (ends_pure ?_))
    simp only [List.append_nil, List.nil_append, ← List.append_assoc]
    refine Operand.temporary (by have := hw.le; omega) le_rfl (by simp [hoistsAs])
      (fun _ => by simp [failsAs]) fun σ τ w henv hs => ?_
    exact (assigned_same ht hw σ τ w henv hs).mono le_rfl (Nat.le_succ _)
  by_cases h2 : ∃ e1 e2, e = etspecialassign e1 e2
  · obtain ⟨e1, e2, rfl⟩ := h2
    rw [normStripped]
    refine ends_bind (ends_addafter (ends_pure ?_))
    exact Operand.special hc (by rw [normal]; exact hn)
  have h2' : ∀ e1 e2, e ≠ etspecialassign e1 e2 := fun e1 e2 heq => h2 ⟨e1, e2, heq⟩
  rw [named_of_ne h2'] at hn
  rw [normStripped_eq (fun e1 e2 heq => h1 ⟨e1, e2, heq⟩) h2']
  split
  · next hatom => exact (he hc hn n).2 hatom
  · next hatom =>
      refine ends_bind (ends_gensym (ends_bind ((he hc hn (n + 1)).1.mono fun e' h n₁ hw => ?_)))
      refine ends_bind (ends_addafter (ends_pure ?_))
      simp only [List.append_nil, List.nil_append]
      obtain ⟨hhoists, hfails⟩ := @hoists_of_not_atomic V F e hc hatom
      refine Operand.temporary (Nat.lt_succ_self n) hw.le hhoists hfails fun σ τ w henv hs => ?_
      exact (hw.same σ τ w henv hs).mono (Nat.le_succ n) le_rfl

theorem normName_ends (ih : ∀ y, sizeOf y ≤ sizeOf e → Walks F doBndVar y)
    (hc : covered e = true) (hn : named e.strip (converts doBndVar e) = true) :
    Ends (normName doBndVar e) n (Operand F e.strip n) := by
  rw [normName_eq]
  refine normStripped_ends (ih _ sizeOf_strip_le) (covered_strip hc) ?_
  rw [converts_strip]
  exact hn

/-- A list of statements has become another one, or a list of expressions evaluated each on
its own. -/
structure Listed (F : Prims V) (el : List E) (n : Nat) (el' h : List E) (n' : Nat) : Prop where
  nil : h = []
  le : n ≤ n'
  same : ∀ (σ τ : Store V) (w : V), τ.env = σ.env → SteadyAll F el σ →
    Same n n' τ.tmp (runAll F el' w τ) (evalAll F el w σ)

/-- An expression evaluated on its own. -/
structure Termed (F : Prims V) (e : E) (n : Nat) (e' : E) (h : List E) (n' : Nat) : Prop where
  nil : h = []
  le : n ≤ n'
  same : ∀ σ : Store V, Steady F e σ → RunsAs F e e' n n' σ

theorem Listed.append {el₂ el₁' el₂' h₂ : List E} {n₁ : Nat}
    (hfirst : ∀ (σ τ : Store V) (w : V), τ.env = σ.env → Steady F e σ →
      Same n n₁ τ.tmp (runAll F el₁' w τ) (eval F e σ)) (hle : n ≤ n₁)
    (hrest : Listed F el₂ n₁ el₂' h₂ n') : Listed F (e :: el₂) n (el₁' ++ el₂') h₂ n' where
  nil := hrest.nil
  le := hle.trans hrest.le
  same := by
    intro σ τ w henv hs
    obtain ⟨hse, hsl⟩ := hs
    rw [runAll_append, evalAll_cons]
    refine ((hfirst σ τ w henv hse).mono le_rfl hrest.le).andThen fun v σ₁ τ₁ heval henv₁ => ?_
    rw [heval] at hsl
    exact (hrest.same σ₁ τ₁ v henv₁ hsl).mono hle le_rfl

theorem normStatements_ends (ih : ∀ y, sizeOf y < sizeOf el → Walks F doBndVar y)
    (hc : coveredAll el = true) (hn : convertsAll doBndVar el = true) :
    Ends (normStatements doBndVar el) n (Listed F el n) := by
  induction el generalizing n with
  | nil =>
      rw [normStatements]
      exact ends_pure ⟨rfl, le_rfl, fun _ _ _ henv _ => ⟨rfl, henv, .refl _⟩⟩
  | cons e el hel =>
      rw [coveredAll, Bool.and_eq_true] at hc
      rw [convertsAll, Bool.and_eq_true] at hn
      rw [normStatements]
      refine ends_bind (ends_statement ?_)
      refine (ih e (by simp; omega) hc.1 hn.1 n).1.mono fun e' h n₁ hw => ?_
      refine ends_bind ((hel (fun y hy => ih y (by simp; omega)) hc.2 hn.2).mono
        fun el' h' n' hl => ends_pure ?_)
      rw [List.append_nil]
      exact Listed.append hw.same hw.le hl

theorem normTerm_ends (ih : ∀ y, sizeOf y ≤ sizeOf e → Walks F doBndVar y)
    (hc : covered e = true) (hn : converts doBndVar e = true) :
    Ends (normTerm doBndVar e) n (Termed F e n) := by
  by_cases hlist : ∃ el, e = etexprlist el
  · obtain ⟨el, rfl⟩ := hlist
    rw [covered] at hc
    rw [converts] at hn
    rw [normTerm]
    refine ends_bind ((normStatements_ends (fun y hy => ih y ?_) hc hn).mono
      fun el' h n' hl => ends_pure ?_)
    · simp
      omega
    · refine ⟨by simp [hl.nil], hl.le, fun σ hs τ henv => ?_⟩
      rw [run_strip, run, eval]
      exact hl.same σ τ F.null henv hs
  · have heq : normTerm doBndVar e =
        statement (norm doBndVar e) >>= fun el => pure (etexprlist el).strip := by
      rw [normTerm]
      intro el hel
      exact hlist ⟨el, hel⟩
    rw [heq]
    refine ends_bind (ends_statement ?_)
    refine (ih e le_rfl hc hn n).1.mono fun e' h n' hw => ends_pure ?_
    refine ⟨rfl, hw.le, fun σ hs τ henv => ?_⟩
    rw [run_strip, run]
    exact hw.same σ τ F.null henv hs

theorem normTerms_ends (ih : ∀ y, sizeOf y < sizeOf el → Walks F doBndVar y)
    (hc : coveredAll el = true) (hn : convertsAll doBndVar el = true) :
    Ends (normTerms doBndVar el) n (Listed F el n) := by
  induction el generalizing n with
  | nil =>
      rw [normTerms]
      exact ends_pure ⟨rfl, le_rfl, fun _ _ _ henv _ => ⟨rfl, henv, .refl _⟩⟩
  | cons e el hel =>
      rw [coveredAll, Bool.and_eq_true] at hc
      rw [convertsAll, Bool.and_eq_true] at hn
      rw [normTerms]
      refine ends_bind ((normTerm_ends (fun y hy => ih y (by simp; omega)) hc.1 hn.1).mono
        fun e' h n₁ ht => ?_)
      refine ends_bind ((hel (fun y hy => ih y (by simp; omega)) hc.2 hn.2).mono
        fun el' h' n' hl => ends_pure ?_)
      rw [ht.nil, List.append_nil, List.nil_append]
      show Listed F (e :: el) n ([e'] ++ el') h' n'
      refine Listed.append (fun σ τ w henv hs => ?_) ht.le hl
      rw [runAll_singleton]
      exact ht.same σ hs τ henv

/-- The arguments of a call, each evaluated on its own when it is asked for. -/
structure Passed (F : Prims V) (el : List E) (n : Nat) (el' h : List E) (n' : Nat) : Prop where
  nil : h = []
  le : n ≤ n'
  names : el'.map argName = el.map argName
  same : ∀ (i : Nat) (σ τ : Store V), τ.env = σ.env → SteadyArg F el i σ →
    Same n n' τ.tmp (runArg F el' i τ) (evalArg F el i σ)

theorem normArgs_ends (ih : ∀ y, sizeOf y < sizeOf el → Walks F doBndVar y)
    (hc : coveredArgs el = true) (hn : convertsArgs doBndVar el = true) :
    Ends (normArgs doBndVar el) n (Passed F el n) := by
  induction el generalizing n with
  | nil =>
      rw [normArgs]
      exact ends_pure ⟨rfl, le_rfl, rfl, fun _ _ _ henv _ => ⟨rfl, henv, .refl _⟩⟩
  | cons e el hel =>
      have hrest := fun n => @hel n fun y hy => ih y (by simp; omega)
      cases e with
      | ettaggedexpr symb ref e =>
          rw [coveredArgs, Bool.and_eq_true] at hc
          rw [convertsArgs, Bool.and_eq_true] at hn
          rw [normArgs]
          refine ends_bind ((normTerm_ends (fun y hy => ih y (by simp; omega)) hc.1 hn.1).mono
            fun e' h n₁ ht => ?_)
          refine ends_bind ((hrest n₁ hc.2 hn.2).mono fun el' h' n' hp => ends_pure ?_)
          refine ⟨by rw [ht.nil, hp.nil]; rfl, ht.le.trans hp.le, ?_, fun i σ τ henv hs => ?_⟩
          · rw [List.map_cons, List.map_cons, hp.names]
            rfl
          · cases i with
            | zero => exact (ht.same σ hs τ henv).mono le_rfl hp.le
            | succ i => exact (hp.same i σ τ henv hs).mono ht.le le_rfl
      | etarg ref e =>
          rw [coveredArgs, Bool.and_eq_true] at hc
          rw [convertsArgs, Bool.and_eq_true] at hn
          rw [normArgs]
          refine ends_bind ((normTerm_ends (fun y hy => ih y (by simp; omega)) hc.1 hn.1).mono
            fun e' h n₁ ht => ?_)
          refine ends_bind ((hrest n₁ hc.2 hn.2).mono fun el' h' n' hp => ends_pure ?_)
          refine ⟨by rw [ht.nil, hp.nil]; rfl, ht.le.trans hp.le, ?_, fun i σ τ henv hs => ?_⟩
          · rw [List.map_cons, List.map_cons, hp.names]
            rfl
          · cases i with
            | zero => exact (ht.same σ hs τ henv).mono le_rfl hp.le
            | succ i => exact (hp.same i σ τ henv hs).mono ht.le le_rfl
      | _ => cases hc

/-! ## Expressions -/

/-- An operand whose value is used at once. -/
theorem Operand.andThen {h : List E} {k : Option V → Store V → Result V}
    {k' : V → Store V → Result V} (ho : Operand F e n e' h n')
    (henv : τ.env = σ.env) (hs : Steady F e σ) (w : V)
    (hnone : ∀ τ, k none τ = (none, τ))
    (hsome : ∀ v σ₁ τ₁, eval F e σ = (some v, σ₁) → τ₁.env = σ₁.env →
      Same n n' τ₁.tmp (k (some v) τ₁) (k' v σ₁)) :
    Same n n' τ.tmp ((runAll F h w τ).andThen fun _ τ => k (evalAtom F τ e') τ)
      ((eval F e σ).andThen k') := by
  cases heval : eval F e σ with
  | mk r σ₁ =>
      cases r with
      | some v =>
          obtain ⟨w', τ₁, hrun, henv₁, hkept, hset⟩ := ho.goes σ τ w v σ₁ henv hs heval
          rw [hrun, Result.andThen, Result.andThen,
            (hset τ₁ (fun _ _ => rfl) fun _ _ _ => rfl).1]
          obtain ⟨hval, henv', hkept'⟩ := hsome v σ₁ τ₁ heval henv₁
          exact ⟨hval, henv', hkept.trans hkept'⟩
      | none =>
          cases hfails : failsAs F true e σ with
          | true =>
              obtain ⟨w', τ₁, hrun, henv₁, hkept, hatom, -⟩ :=
                ho.late σ τ w σ₁ henv hs heval hfails
              rw [hrun, Result.andThen, hatom, hnone]
              exact ⟨rfl, henv₁, hkept⟩
          | false =>
              obtain ⟨τ₁, hrun, henv₁, hkept⟩ := ho.early σ τ w σ₁ henv hs heval hfails
              rw [hrun]
              exact ⟨rfl, henv₁, hkept⟩

theorem run_unop_walked {op : Nat} {h : List E} (ho : Operand F e.strip n e' h n') :
    Walked F (etunop op e) n (etunop op e') h n' where
  le := ho.le
  same := by
    intro σ τ w henv hs
    have heval : eval F (etunop op e) σ =
        (eval F e.strip σ).andThen fun v σ => (F.evalunop op v, σ) := by
      rw [eval, eval_strip]
      cases eval F e σ with
      | mk r σ₁ => cases r <;> rfl
    have hrun : runAll F [etunop op e'] =
        fun _ τ => ((evalAtom F τ e').bind (F.evalunop op), τ) := by
      funext w τ
      rw [runAll_singleton]
      rfl
    rw [runAll_append, heval, hrun]
    refine ho.andThen (k := fun r τ => (r.bind (F.evalunop op), τ)) henv (steady_strip hs) w
      (fun _ => rfl) fun v σ₁ τ₁ _ henv₁ => ?_
    exact ⟨rfl, henv₁, .refl _⟩

/-- What a condition chooses. -/
def branch (c : Option Bool) (f g : Store V → Result V) (σ : Store V) : Result V :=
  match c with
  | some true => f σ
  | some false => g σ
  | none => (none, σ)

theorem ifelse_walked {n₁ n₂ : Nat} {e1 e2 e3 a b c : E} {h h₂ h₃ : List E}
    (h1 : Operand F e1.strip n a h n₁) (h2 : Termed F e2 n₁ b h₂ n₂)
    (h3 : Termed F e3 n₂ c h₃ n') : Walked F (etifelse e1 e2 e3) n (etifelse a b c) h n' where
  le := h1.le.trans (h2.le.trans h3.le)
  same := by
    intro σ τ w henv hs
    obtain ⟨hs1, hs23⟩ := hs
    have heval : eval F (etifelse e1 e2 e3) σ = (eval F e1.strip σ).andThen fun v =>
        branch (F.isTrue v) (eval F e2) (eval F e3) := by
      have h : eval F e1.strip σ = eval F e1 σ := eval_strip e1 σ
      rw [h]
      cases hr : eval F e1 σ with
      | mk r σ₁ =>
        cases r with
        | none => simp [eval, hr, Result.andThen]
        | some v =>
          cases hv : F.isTrue v with
          | none => simp [eval, hr, hv, Result.andThen, branch]
          | some t => cases t <;> simp [eval, hr, hv, Result.andThen, branch]
    have hrun : runAll F [etifelse a b c] = fun _ τ =>
        branch ((evalAtom F τ a).bind F.isTrue) (run F b) (run F c) τ := by
      funext w τ
      cases hv : (evalAtom F τ a).bind F.isTrue with
      | none => simp only [runAll_singleton, run, hv, branch]
      | some t => cases t <;> simp only [runAll_singleton, run, hv, branch]
    have hle := h1.le
    have hle₂ := h2.le
    have hle₃ := h3.le
    rw [runAll_append, heval, hrun]
    refine (h1.widen (hle₂.trans hle₃)).andThen
      (k := fun r => branch (r.bind F.isTrue) (run F b) (run F c)) henv (steady_strip hs1) w (fun _ => rfl) fun v σ₁ τ₁ hv henv₁ => ?_
    rw [eval_strip] at hv
    rw [hv] at hs23
    simp only [Option.bind_some]
    cases htrue : F.isTrue v with
    | none => exact ⟨rfl, henv₁, .refl _⟩
    | some t =>
        cases t with
        | true => exact (h2.same σ₁ (hs23.1 htrue) τ₁ henv₁).mono hle hle₃
        | false => exact (h3.same σ₁ (hs23.2 htrue) τ₁ henv₁).mono (hle.trans hle₂) le_rfl

/-- What is no name is called by its value. -/
theorem evalHead_eq (h : ∀ s ref, e' = etsymbol s ref → isTmp s = true) :
    evalHead F τ e' = (evalAtom F τ e').filter F.isFun := by
  cases e' with
  | etsymbol s ref => simp [evalHead, evalAtom, Store.findFun, Store.find, h s ref rfl]
  | _ => rfl

/-- A variable that has a function for its value is called by its name. -/
theorem evalHead_of_find {s : String} {ref : Bool} {v : V} (hs : isTmp s = false)
    (hfind : τ.find s = some v) (hv : F.isFun v = true) :
    evalHead F τ (etsymbol s ref) = some v := by
  simp only [Store.find, hs, Env.find] at hfind
  simp only [evalHead, Store.findFun, hs, Env.findFun]
  cases hw : τ.env.working s with
  | some w =>
      rw [hw] at hfind
      cases hfind
      simp [Option.filter, hv]
  | none =>
      rw [hw] at hfind
      have hg : τ.env.global s = some v := hfind
      simp [hg, Option.filter, hv]

theorem funcall_walked {n₁ : Nat} {el' h h' : List E} (hc : covered e = true)
    (ho : Operand F e.strip n e' h n₁) (hp : Passed F el n₁ el' h' n') :
    Walked F (etfuncall e el) n (etfuncall e' el') h n' where
  le := ho.le.trans hp.le
  same := by
    intro σ τ w henv hs
    obtain ⟨hse, hspecial, halways⟩ := hs
    have hle := ho.le
    have hle' := hp.le
    have hcall : ∀ {f : Option V} {σ₁ τ₁ : Store V}, headOf F e σ = (f, σ₁) →
        evalHead F τ₁ e' = f → τ₁.env = σ₁.env →
        Same n n' τ₁.tmp (run F (etfuncall e' el') τ₁) (eval F (etfuncall e el) σ) := by
      intro f σ₁ τ₁ hhead hf henv₁
      rw [eval_funcall, hhead]
      refine call_same hf henv₁ hp.names
        (fun i σ τ henv hs => (hp.same i σ τ henv hs).mono hle le_rfl) fun v hv => ?_
      rw [hhead, hv] at halways
      exact halways
    rw [runAll_append]
    cases hname : funName e with
    | some s =>
        obtain ⟨ref, hsym⟩ : ∃ ref, e.strip = etsymbol s ref := by
          unfold funName at hname
          split at hname
          · next s' ref hsym => exact ⟨ref, by rw [hsym, Option.some.inj hname]⟩
          · cases hname
        have hstmp : isTmp s = false := by
          have := covered_strip hc
          rw [hsym] at this
          simpa [covered] using this
        rw [ho.still (by rw [hsym]; rfl), runAll, Result.andThen, runAll_singleton]
        refine hcall (by rw [headOf, hname]) ?_ henv
        rw [ho.name s ref hsym, hsym]
        simp [evalHead, Store.findFun, hstmp, henv]
    | none =>
        cases heval : eval F e σ with
        | mk r σ₁ =>
        have hhead : headOf F e σ = (r.filter F.isFun, σ₁) := by rw [headOf, hname, heval]
        have heval' : eval F e.strip σ = (r, σ₁) := by rw [eval_strip, heval]
        have hsym : ∀ s ref, e.strip ≠ etsymbol s ref := by
          intro s ref hsym
          rw [funName, hsym] at hname
          cases hname
        cases r with
        | some v =>
            obtain ⟨w', τ₁, hrun, henv₁, hkept, hset⟩ :=
              ho.goes σ τ w v σ₁ henv (steady_strip hse) heval'
            have hatom := (hset τ₁ (fun _ _ => rfl) fun _ _ _ => rfl).1
            have hf : evalHead F τ₁ e' = Option.filter F.isFun (some v) := by
              by_cases htmp : ∀ s ref, e' = etsymbol s ref → isTmp s = true
              · rw [evalHead_eq htmp, hatom]
              · simp only [not_forall] at htmp
                obtain ⟨s, ref, rfl, hs⟩ := htmp
                rcases ho.head s ref rfl with htmp | hsame | hspec
                · exact absurd htmp hs
                · exact absurd hsame (hsym s ref)
                · have hfun := hspecial hspec
                  rw [heval] at hfun
                  rw [evalHead_of_find (by simpa using hs) hatom hfun]
                  simp [Option.filter, show F.isFun v = true from hfun]
            rw [hrun, Result.andThen, runAll_singleton]
            obtain ⟨hval, henv', hkept'⟩ := hcall hhead hf henv₁
            exact ⟨hval, henv', (hkept.mono le_rfl hle').trans hkept'⟩
        | none =>
            have heq : eval F (etfuncall e el) σ = (none, σ₁) := by
              rw [eval_funcall, hhead]
              rfl
            rw [heq]
            cases hfails : failsAs F true e.strip σ with
            | true =>
                obtain ⟨w', τ₁, hrun, henv₁, hkept, hatom, -⟩ :=
                  ho.late σ τ w σ₁ henv (steady_strip hse) heval' hfails
                have hf : evalHead F τ₁ e' = none := by
                  rw [evalHead_eq, hatom]
                  · rfl
                  · intro s ref heq'
                    rcases ho.head s ref heq' with htmp | hsame | hspec
                    · exact htmp
                    · exact absurd hsame (hsym s ref)
                    · cases hstrip : e.strip with
                      | etspecialassign e1 e2 => simp [hstrip, failsAs] at hfails
                      | _ => rw [hstrip] at hspec; cases hspec
                rw [hrun, Result.andThen, runAll_singleton, run, hf]
                exact ⟨rfl, henv₁, hkept.mono le_rfl hle'⟩
            | false =>
                obtain ⟨τ₁, hrun, henv₁, hkept⟩ :=
                  ho.early σ τ w σ₁ henv (steady_strip hse) heval' hfails
                rw [hrun]
                exact ⟨rfl, henv₁, hkept.mono le_rfl hle'⟩

/-! ## The whole walk -/

theorem walks_atom (hnorm : norm doBndVar e = pure e) (ho : ∀ n, Operand F e n e [] n) :
    Walks F doBndVar e := by
  intro _ _ n
  rw [hnorm]
  exact ⟨ends_pure (ho n).walked, fun _ => ends_pure (ho n)⟩

/-- One case for each kind of node. -/
theorem walks_of_lt (ih : ∀ y, sizeOf y < sizeOf e → Walks F doBndVar y) :
    Walks F doBndVar e := by
  cases e with
  | etnull =>
      refine walks_atom (by simp [norm]) fun n => Operand.leaf rfl rfl (fun _ => rfl)
        (fun _ _ _ => rfl) fun σ h => ?_
      cases h
  | literal data =>
      refine walks_atom (by simp [norm]) fun n => Operand.leaf rfl rfl (fun _ => rfl)
        (fun _ _ _ => rfl) fun σ h => ?_
      cases h
  | etsymbol s ref =>
      intro hc hn n
      have hs : isTmp s = false := by simpa [covered] using hc
      refine walks_atom (by simp [norm]) (fun n => Operand.leaf hc rfl (fun _ => rfl)
        (fun σ τ h => ?_) fun σ h => ?_) hc hn n
      · have hfind : τ.env.find s = σ.env.find s := h s (by simp [inPlaceAs])
        simp [evalAtom, Store.find, hs, hfind]
      · rw [evalAtom] at h
        simp [failsAs, h]
  | etunop op e =>
      intro hc hn n
      rw [covered] at hc
      rw [converts, operand, Bool.and_eq_true] at hn
      rw [norm]
      refine ⟨ends_bind ((normName_ends (fun y hy => ih y (by simp; omega)) hc hn.1).mono
        fun e' h n' ho => ends_pure ?_), fun hatom => by cases hatom⟩
      rw [List.append_nil]
      exact run_unop_walked ho
  | etbinop op left right attrib =>
      intro hc hn n
      simp only [covered, Bool.and_eq_true] at hc
      simp only [converts, operand, Bool.and_eq_true] at hn
      have hends : Ends (norm doBndVar (etbinop op left right attrib)) n
          (Operand F (etbinop op left right attrib) n) := by
        rw [norm]
        refine ends_bind ((normName_ends (fun y hy => ih y (by simp; omega)) hc.1 hn.1.1).mono
          fun l h₁ n₁ hl => ?_)
        refine ends_bind ((normName_ends (fun y hy => ih y (by simp; omega)) hc.2.1
          hn.2.1.1).mono fun r h₂ n₂ hr => ?_)
        refine ends_bind ((normName_ends (fun y hy => ih y (by simp; omega)) hc.2.2
          hn.2.2.1).mono fun a h₃ n' ha => ends_pure ?_)
        rw [List.append_nil]
        exact Operand.binop hl hr ha
      exact ⟨hends.mono fun e' h n' ho => ho.walked, fun _ => hends⟩
  | etleftassign e1 e2 =>
      intro hc hn n
      rw [covered, Bool.and_eq_true] at hc
      rw [converts, Bool.and_eq_true] at hn
      have hassign : ∀ {e2' : E} {h : List E} {n' : Nat}, Walked F e2 n e2' h n' →
          Walked F (etleftassign e1 e2) n (etleftassign e1 e2') h n' := by
        intro e2' h n' hw
        refine ⟨hw.le, fun σ τ w henv hs => ?_⟩
        rw [runAll_leftassign, eval]
        exact assign_same hc.1 (hw.same σ τ w henv hs)
      refine ⟨?_, fun hatom => by cases hatom⟩
      rw [norm]
      split
      · next hcall =>
          have hn2 : converts doBndVar e2 = true := by
            cases e2 with
            | etfuncall e el => exact hn.2
            | _ => cases hcall
          refine ends_bind ((ih e2 (by simp) hc.2 hn2 n).1.mono
            fun e2' h n' hw => ends_pure ?_)
          rw [List.append_nil]
          exact hassign hw
      · refine ends_bind ((normName_ends (fun y hy => ih y (by simp; omega)) hc.2 hn.2).mono
          fun e2' h n' ho => ends_pure ?_)
        rw [List.append_nil]
        exact hassign ho.walked.of_strip
  | etspecialassign e1 e2 =>
      intro hc hn n
      rw [covered, Bool.and_eq_true] at hc
      simp only [converts, Bool.and_eq_true] at hn
      refine ⟨?_, fun hatom => by cases hatom⟩
      rw [norm, if_neg (by simpa using hn.1)]
      refine ends_bind ((normName_ends (fun y hy => ih y (by simp; omega)) hc.2 hn.2.2).mono
        fun e2' h n' ho => ends_pure ?_)
      rw [List.append_nil]
      refine ⟨ho.le, fun σ τ w henv hs => ?_⟩
      rw [runAll_specialassign, eval]
      exact specialAssign_same (ho.walked.of_strip.same σ τ w henv hs)
  | etexprlist el =>
      intro hc hn n
      rw [covered] at hc
      rw [converts] at hn
      refine ⟨?_, fun hatom => by cases hatom⟩
      rw [norm]
      refine ends_bind ((normTerms_ends (fun y hy => ih y (by simp; omega)) hc hn).mono
        fun el' h n' hl => ends_pure ?_)
      rw [List.append_nil]
      refine ⟨hl.le, fun σ τ w henv hs => ?_⟩
      rw [hl.nil, List.nil_append, runAll_singleton, run, eval]
      exact hl.same σ τ F.null henv hs
  | etifelse e1 e2 e3 =>
      intro hc hn n
      simp only [covered, Bool.and_eq_true] at hc
      simp only [converts, operand, Bool.and_eq_true] at hn
      refine ⟨?_, fun hatom => by cases hatom⟩
      rw [norm]
      refine ends_bind ((normName_ends (fun y hy => ih y (by simp; omega)) hc.1 hn.1.1).mono
        fun a h n₁ h1 => ?_)
      refine ends_bind ((normTerm_ends (fun y hy => ih y (by simp; omega)) hc.2.1 hn.2.1).mono
        fun b h₂ n₂ h2 => ?_)
      refine ends_bind ((normTerm_ends (fun y hy => ih y (by simp; omega)) hc.2.2 hn.2.2).mono
        fun c h₃ n' h3 => ends_pure ?_)
      rw [h2.nil, h3.nil]
      simp only [List.append_nil]
      exact ifelse_walked h1 h2 h3
  | etfuncall e el =>
      intro hc hn n
      rw [covered, Bool.and_eq_true] at hc
      simp only [converts, operand, Bool.and_eq_true] at hn
      refine ⟨?_, fun hatom => by cases hatom⟩
      rw [norm]
      refine ends_bind ((normName_ends (fun y hy => ih y (by simp; omega)) hc.1 hn.1.1).mono
        fun e' h n₁ ho => ?_)
      refine ends_bind ((normArgs_ends (fun y hy => ih y (by simp; omega)) hc.2 hn.2).mono
        fun el' h' n' hp => ends_pure ?_)
      rw [hp.nil]
      simp only [List.append_nil]
      exact funcall_walked hc.1 ho hp
  | _ =>
      intro hc
      cases hc

theorem walks (F : Prims V) (doBndVar : Bool) (e : E) : Walks F doBndVar e := by
  induction hk : sizeOf e using Nat.strong_induction_on generalizing e with
  | _ k ih => exact walks_of_lt fun y hy => ih (sizeOf y) (hk ▸ hy) y rfl

theorem convertStatements_ends (hc : coveredAll el = true) (hn : convertsAll doBndVar el = true)
    {el' : List E} {hs : List (Into × E)} (h : convertStatements doBndVar el n = .ok (el', hs, n')) :
    Listed F el n el' [] n' := by
  induction el generalizing n el' hs with
  | nil =>
      cases h
      exact ⟨rfl, le_rfl, fun _ _ _ henv _ => ⟨rfl, henv, .refl _⟩⟩
  | cons e el ih =>
      rw [coveredAll, Bool.and_eq_true] at hc
      rw [convertsAll, Bool.and_eq_true] at hn
      rw [convertStatements] at h
      obtain ⟨s, hs₁, n₁, hs₂, hfirst, h₂, rfl⟩ := bind_eq_ok h
      obtain ⟨rest, hs₃, n₂, hs₄, hrest, h₃, rfl⟩ := bind_eq_ok h₂
      cases h₃
      unfold outermost at hfirst
      split at hfirst
      · cases hfirst
      · next e' hs' n₁' hnorm =>
          cases hfirst
          obtain ⟨h', rfl, hw⟩ := (walks F doBndVar e hc.1 hn.1 n).1 e' hs' _ hnorm
          have hmap : (h'.map fun e => (Into.el, e)).map Prod.snd = h' := by
            rw [List.map_map]
            exact List.map_id _
          rw [hmap]
          exact Listed.append hw.same hw.le (ih hc.2 hn.2 hrest)

/-- A steady program that can be normalised gives the same value, or the same error, and
leaves the same variables when it is normalised and run. -/
theorem eval_convertToANF (F : Prims V) (doBndVar : Bool) (el : List E) (n : Nat) (σ : Store V)
    (hc : coveredAll el = true) (hn : convertsAll doBndVar el = true)
    (hs : SteadyAll F el σ) :
    ∃ out n', convertToANF doBndVar el n = .ok (out, n') ∧
      (runAll F out F.null σ).1 = (evalAll F el F.null σ).1 ∧
      (runAll F out F.null σ).2.env = (evalAll F el F.null σ).2.env := by
  obtain ⟨out, n', hok, -⟩ := (@exists_normal_iff doBndVar el n).2 hn
  refine ⟨out, n', hok, ?_⟩
  rw [convertToANF] at hok
  split at hok
  · cases hok
  · next h =>
      cases hok
      have hlisted : Listed F el n out [] n' := convertStatements_ends hc hn h
      obtain ⟨hval, henv, -⟩ := hlisted.same σ σ F.null rfl hs
      exact ⟨hval, henv⟩

/-- Numbers, with one function that is called without arguments and assigns to `x`. -/
def numbers : Prims Nat where
  null := 0
  lit
    | .double d => d.toNat
    | _ => 0
  closure _ _ := 0
  evalunop _ v := some v
  evalbinop _ v w _ := some (v + w)
  isTrue v := some (v ≠ 0)
  isFun v := v = 100
  call _ _ env := .done (some 7) (env.add "x" 3)

/-- `x` is 1, `y` is 2 and `f` is the function. -/
def xyf : Store Nat where
  env := {
    working := fun s => if s = "x" then some 1 else if s = "y" then some 2 else none
    global := fun s => if s = "f" then some 100 else none }
  tmp := fun _ => none

/-- `y + f()` -/
theorem eval_convertToANF_call :
    ∃ out n', convertToANF true [etbinop 0 (etsymbol "y" false)
        (etfuncall (etsymbol "f" false) []) etnull] 0 = .ok (out, n') ∧
      (runAll numbers out 0 xyf).1 = some 9 ∧
      (runAll numbers out 0 xyf).2.env = xyf.env.add "x" 3 := by
  have hsteady : SteadyAll numbers [etbinop 0 (etsymbol "y" false)
      (etfuncall (etsymbol "f" false) []) etnull] xyf := by
    refine ⟨⟨trivial, by decide, ⟨trivial, nofun, trivial⟩, by decide, trivial, ?_, ?_⟩, trivial⟩
    · decide
    · decide
  obtain ⟨out, n', hok, hval, henv⟩ := eval_convertToANF numbers true _ 0 xyf
    (by decide) (by decide) hsteady
  exact ⟨out, n', hok, hval, henv⟩

/-- `x + (x <- 5)`: the assignment is done before `x` is read. -/
theorem not_eval_convertToANF :
    ¬∀ (F : Prims Nat) (el : List E) (n : Nat) (σ : Store Nat), coveredAll el = true →
      ∃ out n', convertToANF true el n = .ok (out, n') ∧
        (runAll F out F.null σ).1 = (evalAll F el F.null σ).1 ∧
        (runAll F out F.null σ).2.env = (evalAll F el F.null σ).2.env := by
  intro h
  obtain ⟨out, n', hok, hval, -⟩ := h numbers [etbinop 0 (etsymbol "x" false)
    (etleftassign (etsymbol "x" false) (literal (.double 5))) etnull] 0 xyf (by decide)
  have hout : convertToANF true [etbinop 0 (etsymbol "x" false)
      (etleftassign (etsymbol "x" false) (literal (.double 5))) etnull] 0 =
      .ok ([etleftassign (etsymbol "x" false) (literal (.double 5)),
        etleftassign (etsymbol "?anf1" false) (etsymbol "x" false),
        etbinop 0 (etsymbol "x" false) (etsymbol "?anf1" false) etnull], 1) := by
    simp [convertToANF, convertStatements, norm, normName, normStripped, outermost, isAtomic,
      E.isFuncall, Bind.bind, Anf.bind, Pure.pure, Anf.pure, gensym, addafter]
    decide
  rw [hout] at hok
  cases hok
  exact absurd hval (by decide)

end Ztsdb.Lang
