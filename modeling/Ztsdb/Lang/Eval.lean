import Mathlib
import Ztsdb.Lang.Anf

/-!
# Evaluation

The interpreter evaluates an expression whose operands are atoms: `evalAtom` has the value
of an atom in one go, and what is no atom takes the steps of `run`. `eval` evaluates an
expression as it is written, its operands from left to right.

Values and operators are taken as they come. A function that is called is given its
arguments unevaluated; it does what it does to the variables and has an argument evaluated
where it wants to. The variables whose names begin with a question mark are kept apart from
the others, and a function has no sight of them. The text of an error is left out.
-/

namespace Ztsdb.Lang

open E

variable {V : Type}

/-- The frame of the context and the global one. -/
structure Env (V : Type) where
  working : String → Option V
  global : String → Option V

/-- The frames with the temporaries. -/
structure Store (V : Type) where
  env : Env V
  tmp : String → Option V

/-- What a call does: it ends with a value or an error, or it has its `i`-th argument
evaluated and goes on from there. -/
inductive Body (V : Type) where
  | done (r : Option V) (env : Env V)
  | arg (i : Nat) (env : Env V) (k : Option V → Env V → Body V)

/-- The values and what is done with them. -/
structure Prims (V : Type) where
  null : V
  lit : Literal → V
  closure : List E → E → V
  evalunop : Nat → V → Option V
  evalbinop : Nat → V → V → V → Option V
  isTrue : V → Option Bool
  isFun : V → Bool
  /-- The names of the actual arguments are known. -/
  call : V → List String → Env V → Body V

namespace Env

/-- `find`. -/
def find (env : Env V) (s : String) : Option V := (env.working s).or (env.global s)

/-- `findR` of something that is to be called: what is no function is passed over. -/
def findFun (F : Prims V) (env : Env V) (s : String) : Option V :=
  ((env.working s).filter F.isFun).or ((env.global s).filter F.isFun)

/-- `add`. -/
def add (env : Env V) (s : String) (v : V) : Env V :=
  { env with working := Function.update env.working s (some v) }

/-- `addSpecial`. -/
def addSpecial (env : Env V) (s : String) (v : V) : Env V :=
  if (env.working s).isSome then env.add s v
  else { env with global := Function.update env.global s (some v) }

@[simp] theorem find_add (env : Env V) (s : String) (v : V) : (env.add s v).find s = some v := by
  simp [find, add]

@[simp] theorem find_addSpecial (env : Env V) (s : String) (v : V) :
    (env.addSpecial s v).find s = some v := by
  rw [addSpecial]
  split
  · exact find_add env s v
  · next h => simp [find, Option.not_isSome_iff_eq_none.1 h]

end Env

/-- The names of temporaries. -/
def isTmp (s : String) : Bool := s.toList.head? = some '?'

namespace Store

def find (σ : Store V) (s : String) : Option V := if isTmp s then σ.tmp s else σ.env.find s

def findFun (F : Prims V) (σ : Store V) (s : String) : Option V :=
  if isTmp s then (σ.tmp s).filter F.isFun else σ.env.findFun F s

def add (σ : Store V) (s : String) (v : V) : Store V :=
  if isTmp s then { σ with tmp := Function.update σ.tmp s (some v) }
  else { σ with env := σ.env.add s v }

/-- Special assignments never go to the temporaries. -/
def addSpecial (σ : Store V) (s : String) (v : V) : Store V :=
  { σ with env := σ.env.addSpecial s v }

end Store

/-- A value or an error, and what is stored after it. -/
abbrev Result (V : Type) : Type := Option V × Store V

/-- The value goes on, an error stays. -/
def Result.andThen (r : Result V) (k : V → Store V → Result V) : Result V :=
  match r with
  | (some v, σ) => k v σ
  | (none, σ) => (none, σ)

/-- Only a symbol can be assigned to. -/
def assign (e : E) (r : Result V) : Result V :=
  r.andThen fun v σ =>
    match e with
    | etsymbol s _ => (some v, σ.add s v)
    | _ => (none, σ)

def specialAssign (e : E) (r : Result V) : Result V :=
  r.andThen fun v σ =>
    match e with
    | etsymbol s _ => (some v, σ.addSpecial s v)
    | _ => (none, σ)

/-- A call, given how its arguments are evaluated. -/
def Body.run (arg : Nat → Store V → Result V) : Body V → (String → Option V) → Result V
  | .done r env, tmp => (r, ⟨env, tmp⟩)
  | .arg i env k, tmp =>
    let x := arg i ⟨env, tmp⟩
    (k x.1 x.2.env).run arg x.2.tmp

/-- The name of an actual argument. -/
def argName : E → String
  | ettaggedexpr symb _ _ => symb
  | _ => ""

/-- The symbol in the head of a call. -/
def funName (e : E) : Option String :=
  match e.strip with
  | etsymbol s _ => some s
  | _ => none

section Eval

variable (F : Prims V)

/-- `evalAtom`. -/
def evalAtom (σ : Store V) : E → Option V
  | etnull => some F.null
  | literal data => some (F.lit data)
  | etsymbol s _ => σ.find s
  | etboundvar s => σ.find s
  | etfunction formlist body => some (F.closure formlist body)
  | etunop op e => (evalAtom σ e).bind (F.evalunop op)
  | etbinop op left right attrib =>
    (evalAtom σ left).bind fun v => (evalAtom σ right).bind fun w =>
      (evalAtom σ attrib).bind (F.evalbinop op v w)
  | _ => none

/-- The head of a call. -/
def evalHead (σ : Store V) : E → Option V
  | etsymbol s _ => σ.findFun F s
  | e => (evalAtom F σ e).filter F.isFun

mutual

/-- The interpreter. -/
def run : E → Store V → Result V
  | etleftassign e1 e2, σ => assign e1 (run e2 σ)
  | etspecialassign e1 e2, σ => specialAssign e1 (run e2 σ)
  | etexprlist el, σ => runAll el F.null σ
  | etifelse e1 e2 e3, σ =>
    match (evalAtom F σ e1).bind F.isTrue with
    | some true => run e2 σ
    | some false => run e3 σ
    | none => (none, σ)
  | etfuncall e el, σ =>
    match evalHead F σ e with
    | some f => (F.call f (el.map argName) σ.env).run (fun i σ => runArg el i σ) σ.tmp
    | none => (none, σ)
  | e, σ => (evalAtom F σ e, σ)

/-- Statements after one with the value `v`. -/
def runAll : List E → V → Store V → Result V
  | [], v, σ => (some v, σ)
  | e :: el, _, σ =>
    match run e σ with
    | (some v, σ) => runAll el v σ
    | (none, σ) => (none, σ)

def runArg : List E → Nat → Store V → Result V
  | [], _, σ => (none, σ)
  | ettaggedexpr _ _ e :: _, 0, σ => run e σ
  | etarg _ e :: _, 0, σ => run e σ
  | _ :: _, 0, σ => (none, σ)
  | _ :: el, i + 1, σ => runArg el i σ

end

mutual

/-- From left to right. -/
def eval : E → Store V → Result V
  | etunop op e, σ =>
    match eval e σ with
    | (some v, σ) => (F.evalunop op v, σ)
    | (none, σ) => (none, σ)
  | etbinop op left right attrib, σ =>
    match eval left σ with
    | (some v, σ) =>
      match eval right σ with
      | (some w, σ) =>
        match eval attrib σ with
        | (some a, σ) => (F.evalbinop op v w a, σ)
        | (none, σ) => (none, σ)
      | (none, σ) => (none, σ)
    | (none, σ) => (none, σ)
  | etleftassign e1 e2, σ => assign e1 (eval e2 σ)
  | etspecialassign e1 e2, σ => specialAssign e1 (eval e2 σ)
  | etexprlist el, σ => evalAll el F.null σ
  | etifelse e1 e2 e3, σ =>
    match eval e1 σ with
    | (some v, σ) =>
      match F.isTrue v with
      | some true => eval e2 σ
      | some false => eval e3 σ
      | none => (none, σ)
    | (none, σ) => (none, σ)
  | etfuncall e el, σ =>
    let r := match funName e with
      | some s => (σ.findFun F s, σ)
      | none => ((eval e σ).1.filter F.isFun, (eval e σ).2)
    match r with
    | (some f, σ) => (F.call f (el.map argName) σ.env).run (fun i σ => evalArg el i σ) σ.tmp
    | (none, σ) => (none, σ)
  | e, σ => (evalAtom F σ e, σ)

def evalAll : List E → V → Store V → Result V
  | [], v, σ => (some v, σ)
  | e :: el, _, σ =>
    match eval e σ with
    | (some v, σ) => evalAll el v σ
    | (none, σ) => (none, σ)

def evalArg : List E → Nat → Store V → Result V
  | [], _, σ => (none, σ)
  | ettaggedexpr _ _ e :: _, 0, σ => eval e σ
  | etarg _ e :: _, 0, σ => eval e σ
  | _ :: _, 0, σ => (none, σ)
  | _ :: el, i + 1, σ => evalArg el i σ

end

end Eval

end Ztsdb.Lang
