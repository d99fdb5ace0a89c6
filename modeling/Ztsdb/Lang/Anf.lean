import Mathlib
import Ztsdb.Lang.Ast

/-!
# Normalisation

`convertToANF` walks the statements of a list. Where an operand is no atom, it is hoisted:
assigned to a new symbol by a statement put before the one that is being walked. Every
expression that is evaluated on its own (an argument, a branch, a body) becomes a list for
the time of its walk, so that what it hoists stays with it, and is stripped again if it
hoisted nothing.

The source passes two places to insert at, the list of the statement and an outer one,
where the values that go with a request are bound. Here a walk returns what it inserts,
each statement with the list it goes into, and the number of the last new symbol.
-/

namespace Ztsdb.Lang

/-- Ends of a walk that are no normalised expression. -/
inductive Fail where
  | domain_error (what : String)
  /-- A node used as one of another type. -/
  | undefined

/-- The list of the statement, or the outer one. -/
inductive Into where
  | el
  | top
  deriving DecidableEq

def Anf (α : Type) : Type := Nat → Except Fail (α × List (Into × E) × Nat)

namespace Anf

variable {α β : Type}

protected def pure (a : α) : Anf α := fun n => .ok (a, [], n)

protected def bind (m : Anf α) (k : α → Anf β) : Anf β := fun n =>
  match m n with
  | .error f => .error f
  | .ok (a, h, n) =>
    match k a n with
    | .error f => .error f
    | .ok (b, h', n) => .ok (b, h ++ h', n)

instance : Monad Anf where
  pure := Anf.pure
  bind := Anf.bind

def fail (f : Fail) : Anf α := fun _ => .error f

def gensym (s : String) : Anf String := fun n => .ok (s ++ toString (n + 1), [], n + 1)

def addafter (w : Into) (e : E) : Anf Unit := fun n => .ok ((), [(w, e)], n)

/-- The statements that go into one of the lists. -/
def of (w : Into) (h : List (Into × E)) : List E := (h.filter fun x => x.1 = w).map Prod.snd

/-- A statement of a list of its own, with what is put before it. -/
def statement (m : Anf E) : Anf (List E) := fun n =>
  match m n with
  | .error f => .error f
  | .ok (e, h, n) => .ok (of .el h ++ [e], (of .top h).map fun e => (.top, e), n)

/-- A walk whose outer list is that of the statement. -/
def within (m : Anf E) : Anf E := fun n =>
  match m n with
  | .error f => .error f
  | .ok (e, h, n) => .ok (e, h.map fun x => (.el, x.2), n)

/-- A statement where both lists are the same. -/
def outermost (m : Anf E) : Anf (List E) := fun n =>
  match m n with
  | .error f => .error f
  | .ok (e, h, n) => .ok (h.map Prod.snd ++ [e], [], n)

end Anf

open Anf E

def E.isFuncall : E → Bool
  | etfuncall _ _ => true
  | _ => false

/-- What is left in place as an operand. -/
def isAtomic : E → Bool
  | literal _ => true
  | etbinop _ _ _ _ => true
  | etsymbol _ _ => true
  | etboundvar _ => true
  | etnull => true
  | etnext => true
  | etbreak => true
  | etellipsis => true
  | ettaggedexpr _ _ _ => true
  | etarg _ _ => true
  | _ => false

section Walk

-- whether values are to be bound for requests
variable (doBndVar : Bool)

mutual

def norm (e : E) : Anf E :=
  match e with
  | etfuncall e el => do
    let e ← normName e
    let el ← normArgs el
    pure (etfuncall e el)
  | etleftassign e1 e2 => do
    let e2 ← if e2.isFuncall then norm e2 else normName e2
    pure (etleftassign e1 e2)
  | etspecialassign e1 e2 =>
    if e2.isFuncall then do
      -- no return here: the next case takes the assignment for a unary operator
      let _ ← norm e2
      fail .undefined
    else do
      let e2 ← normName e2
      pure (etspecialassign e1 e2)
  | etunop op e => do
    let e ← normName e
    pure (etunop op e)
  | etbinop op left right attrib => do
    let left ← normName left
    let right ← normName right
    let attrib ← normName attrib
    pure (etbinop op left right attrib)
  | etexprlist el => do
    let el ← normTerms el
    pure (etexprlist el)
  | etfunction formlist body => do
    let formlist ← normFormals formlist
    let body ← normTerm body
    pure (etfunction formlist body)
  | etifelse e1 e2 e3 => do
    let e1 ← normName e1
    let e2 ← normTerm e2
    let e3 ← normTerm e3
    pure (etifelse e1 e2 e3)
  | etwhile e1 e2 => do
    let e1 ← normTerm e1
    let e2 ← normTerm e2
    pure (etwhile e1 e2)
  | etfor forloop => do
    let forloop ← normTerm forloop
    pure (etfor forloop)
  | etrequest e1 e2 => do
    let e1 ← normName e1
    let e2 ← within (normTerm e2)
    pure (etrequest e1 e2)
  | etescape e =>
    if doBndVar then do
      -- with values bound inside as well, which they are here
      let e ← normTerm e
      let s ← gensym "?bnd"
      addafter .top (etleftassign (etsymbol s false) e)
      pure (etboundvar s)
    else do
      let s ← gensym "?bnd"
      pure (etboundvar s)
  | e => pure e
  termination_by (sizeOf e, 0)

/-- An expression evaluated on its own. -/
def normTerm (e : E) : Anf E :=
  match e with
  | etexprlist el => do
    let el ← normStatements el
    pure (etexprlist el).strip
  | e => do
    let el ← statement (norm e)
    pure (etexprlist el).strip
  termination_by (sizeOf e, 1)

/-- The loop of `normTerm`. -/
def normStatements (el : List E) : Anf (List E) :=
  match el with
  | [] => pure []
  | e :: el => do
    let e ← statement (norm e)
    let el ← normStatements el
    pure (e ++ el)
  termination_by (sizeOf el, 0)

def normTerms (el : List E) : Anf (List E) :=
  match el with
  | [] => pure []
  | e :: el => do
    let e ← normTerm e
    let el ← normTerms el
    pure (e :: el)
  termination_by (sizeOf el, 0)

/-- Actual arguments. -/
def normArgs (el : List E) : Anf (List E) :=
  match el with
  | [] => pure []
  | ettaggedexpr symb ref e :: el => do
    let e ← normTerm e
    let el ← normArgs el
    pure (ettaggedexpr symb ref e :: el)
  | etarg ref e :: el => do
    let e ← normTerm e
    let el ← normArgs el
    pure (etarg ref e :: el)
  | _ :: _ => fail (.domain_error "anf::norm: argument is not a tagged expression or an arg")
  termination_by (sizeOf el, 0)

/-- Formal arguments, with their defaults. -/
def normFormals (el : List E) : Anf (List E) :=
  match el with
  | [] => pure []
  | ettaggedexpr symb ref e :: el => do
    let e ← normTerm e
    let el ← normFormals el
    pure (ettaggedexpr symb ref e.strip :: el)
  | etsymbol data ref :: el => do
    let el ← normFormals el
    pure (etsymbol data ref :: el)
  | etellipsis :: el => do
    let el ← normFormals el
    pure (etellipsis :: el)
  | _ :: _ => fail (.domain_error "anf::norm: formlist has invalid type element")
  termination_by (sizeOf el, 0)

/-- An operand, once it is stripped. -/
def normStripped (e : E) : Anf E :=
  match e with
  | etleftassign e1 e2 => do
    let la ← norm (etleftassign e1 e2)
    addafter .el la
    let s ← gensym "?anf"
    addafter .el (etleftassign (etsymbol s false) e1)
    pure (etsymbol s false)
  | etspecialassign e1 e2 => do
    -- hoisted as it is
    addafter .el (etspecialassign e1 e2)
    pure e1
  | e =>
    if isAtomic e then norm e
    else do
      let s ← gensym "?anf"
      let e ← norm e
      addafter .el (etleftassign (etsymbol s false) e)
      pure (etsymbol s false)
  termination_by (sizeOf e, 1)

/-- An operand. -/
def normName (e : E) : Anf E :=
  match e with
  | etexprlist [e] => normStripped e
  | e => normStripped e
  termination_by (sizeOf e, 2)

end

/-- The statements of a program. -/
def convertStatements : List E → Anf (List E)
  | [] => pure []
  | e :: el => do
    let e ← outermost (norm doBndVar e)
    let el ← convertStatements el
    pure (e ++ el)

/-- `convertToANF`, after `n` new symbols. -/
def convertToANF (el : List E) (n : Nat) : Except Fail (List E × Nat) :=
  match convertStatements doBndVar el n with
  | .error f => .error f
  | .ok (el, _, n) => .ok (el, n)

end Walk

end Ztsdb.Lang
