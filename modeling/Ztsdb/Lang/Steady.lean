import Mathlib
import Ztsdb.Lang.Eval
import Ztsdb.Lang.AnfNormal

/-!
# Programs that do not depend on what is hoisted

A symbol that is an operand stays where it is, and what stays is evaluated after everything
that is hoisted from the same expression, also from its right. A program is steady when
that makes no difference at any operator it comes to: what is hoisted from the right
changes no variable that is read in place on the left, and nothing is hoisted from the
right of an operand that fails in place.
-/

namespace Ztsdb.Lang

open E

/-- What is assigned to has not the name of a temporary. -/
def target : E → Bool
  | etsymbol s _ => !isTmp s
  | _ => true

mutual

/-- Literals, symbols, operators, assignments, lists, conditionals and calls. The parser
reads no symbol that has the name of a temporary. -/
def covered : E → Bool
  | etnull => true
  | literal _ => true
  | etsymbol s _ => !isTmp s
  | etunop _ e => covered e
  | etbinop _ left right attrib => covered left && (covered right && covered attrib)
  | etleftassign e1 e2 => target e1 && covered e2
  | etspecialassign e1 e2 => target e1 && covered e2
  | etexprlist el => coveredAll el
  | etifelse e1 e2 e3 => covered e1 && (covered e2 && covered e3)
  | etfuncall e el => covered e && coveredArgs el
  | _ => false

def coveredAll : List E → Bool
  | [] => true
  | e :: el => covered e && coveredAll el

def coveredArgs : List E → Bool
  | [] => true
  | ettaggedexpr _ _ e :: el => covered e && coveredArgs el
  | etarg _ e :: el => covered e && coveredArgs el
  | _ :: _ => false

end

/-- Whether an operand hoists anything; a list of one element is stripped first. -/
def hoistsAs : Bool → E → Bool
  | _, etnull => false
  | _, literal _ => false
  | _, etsymbol _ _ => false
  | _, etbinop _ left right attrib =>
    hoistsAs false left || (hoistsAs false right || hoistsAs false attrib)
  | false, etexprlist [e] => hoistsAs true e
  | _, _ => true

/-- The variables that are read where an operand was. -/
def inPlaceAs : Bool → E → List String
  | _, etsymbol s _ => [s]
  | _, etbinop _ left right attrib =>
    inPlaceAs false left ++ (inPlaceAs false right ++ inPlaceAs false attrib)
  | _, etspecialassign (etsymbol s _) _ => [s]
  | false, etexprlist [e] => inPlaceAs true e
  | _, _ => []

/-- A condition on what comes of an evaluation without an error. -/
def Result.Then {V : Type} (r : Result V) (P : V → Store V → Prop) : Prop :=
  match r with
  | (some v, σ) => P v σ
  | (none, _) => True

/-- A condition on the evaluations of the arguments in a call. -/
def Body.Always {V : Type} (arg : Nat → Store V → Result V) (P : Nat → Store V → Prop) :
    Body V → (String → Option V) → Prop
  | .done _ _, _ => True
  | .arg i env k, tmp =>
    P i ⟨env, tmp⟩ ∧ (k (arg i ⟨env, tmp⟩).1 (arg i ⟨env, tmp⟩).2.env).Always arg P
      (arg i ⟨env, tmp⟩).2.tmp

section Steady

variable {V : Type} (F : Prims V)

/-- Whether the evaluation of an operand fails in what stays in place. -/
def failsAs : Bool → E → Store V → Bool
  | _, etsymbol s _, σ => (σ.find s).isNone
  | _, etbinop op left right attrib, σ =>
    match eval F left σ with
    | (none, _) => failsAs false left σ
    | (some v, σ₁) =>
      match eval F right σ₁ with
      | (none, _) => failsAs false right σ₁
      | (some w, σ₂) =>
        match eval F attrib σ₂ with
        | (none, _) => failsAs false attrib σ₂
        | (some a, _) => (F.evalbinop op v w a).isNone
  | false, etexprlist [e], σ => failsAs true e σ
  | _, _, _ => false

/-- What is called, and what is stored then. -/
def headOf (e : E) (σ : Store V) : Result V :=
  match funName e with
  | some s => (σ.findFun F s, σ)
  | none => ((eval F e σ).1.filter F.isFun, (eval F e σ).2)

def isSpecial : E → Bool
  | etspecialassign _ _ => true
  | _ => false

mutual

/-- Along the evaluation from left to right. -/
def Steady : E → Store V → Prop
  | etunop _ e, σ => Steady e σ
  | etbinop _ left right attrib, σ =>
    Steady left σ ∧
    (failsAs F false left σ = true →
      hoistsAs false right = false ∧ hoistsAs false attrib = false) ∧
    (eval F left σ).Then fun _ σ₁ => Steady right σ₁ ∧
      (failsAs F false right σ₁ = true → hoistsAs false attrib = false) ∧
      (eval F right σ₁).Then fun _ σ₂ => Steady attrib σ₂ ∧
        (eval F attrib σ₂).Then fun _ σ₃ =>
          (∀ s ∈ inPlaceAs false left, σ₃.env.find s = σ₁.env.find s) ∧
            ∀ s ∈ inPlaceAs false right, σ₃.env.find s = σ₂.env.find s
  | etleftassign _ e2, σ => Steady e2 σ
  | etspecialassign _ e2, σ => Steady e2 σ
  | etexprlist el, σ => SteadyAll el σ
  | etifelse e1 e2 e3, σ =>
    Steady e1 σ ∧ (eval F e1 σ).Then fun v σ =>
      (F.isTrue v = some true → Steady e2 σ) ∧ (F.isTrue v = some false → Steady e3 σ)
  | etfuncall e el, σ =>
    Steady e σ ∧
    -- the left side of a special assignment is looked up as a function's name
    (isSpecial e.strip = true → (eval F e σ).Then fun v _ => F.isFun v = true) ∧
    (headOf F e σ).Then fun f σ => (F.call f (el.map argName) σ.env).Always
      (fun i σ => evalArg F el i σ) (fun i σ => SteadyArg el i σ) σ.tmp
  | _, _ => True

def SteadyAll : List E → Store V → Prop
  | [], _ => True
  | e :: el, σ => Steady e σ ∧ (eval F e σ).Then fun _ σ => SteadyAll el σ

def SteadyArg : List E → Nat → Store V → Prop
  | [], _, _ => True
  | ettaggedexpr _ _ e :: _, 0, σ => Steady e σ
  | etarg _ e :: _, 0, σ => Steady e σ
  | _ :: _, 0, _ => True
  | _ :: el, i + 1, σ => SteadyArg el i σ

end

end Steady

end Ztsdb.Lang
