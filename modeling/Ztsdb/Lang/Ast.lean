import Mathlib

/-!
# Syntax trees

The nodes that the parser and the normalisation build, under the names of their types;
locations are left out. The arguments of a call and the formal arguments of a function are
nodes too, as in the source, and a function without formal arguments has an empty list of
them.

`canEval` follows the cases of `evalAtom`, the part of the interpreter that evaluates an
expression in one go: whatever is not among them ends in "unknown atomic expression".
-/

namespace Ztsdb.Lang

/-- The constants, with their data. -/
inductive Literal where
  | bool (data : Bool)
  | double (data : UInt64)
  | dtime (data : Int64)
  | interval (s e : Int64) (sopen eopen : UInt32)
  | string (data : String)
  deriving DecidableEq

inductive E where
  | etnull
  | etnext
  | etbreak
  | etellipsis
  | literal (data : Literal)
  | etsymbol (data : String) (ref : Bool)
  | etboundvar (data : String)
  | etescape (e : E)
  | etunop (op : Nat) (e : E)
  | etbinop (op : Nat) (left right attrib : E)
  | etexprlist (el : List E)
  | etwhile (e1 e2 : E)
  | etifelse (e1 e2 e3 : E)
  | etfor (forloop : E)
  | etleftassign (e1 e2 : E)
  | etspecialassign (e1 e2 : E)
  | etrequest (e1 e2 : E)
  | ettaggedexpr (symb : String) (ref : Bool) (e : E)
  | etfunction (formlist : List E) (body : E)
  | etfuncall (e : E) (el : List E)
  | etarg (ref : Bool) (e : E)

namespace E

/-- Whether `evalAtom` has a value for an expression, whatever the symbols stand for. -/
def canEval : E → Bool
  | etnull => true
  | literal _ => true
  | etsymbol _ _ => true
  | etboundvar _ => true
  | etfunction _ _ => true
  | etunop _ e => e.canEval
  | etbinop _ left right attrib => left.canEval && (right.canEval && attrib.canEval)
  | _ => false

mutual

/-- At any depth, the operands and attributes of operators, the conditions, the
connections and the heads of calls can be evaluated in one go. -/
def normal : E → Bool
  | etnull => true
  | etnext => true
  | etbreak => true
  | etellipsis => true
  | literal _ => true
  | etsymbol _ _ => true
  | etboundvar _ => true
  | etescape e => e.normal
  | etunop _ e => e.canEval && e.normal
  | etbinop _ left right attrib =>
    (left.canEval && left.normal) && ((right.canEval && right.normal) &&
      (attrib.canEval && attrib.normal))
  | etexprlist el => normals el
  | etwhile e1 e2 => e1.normal && e2.normal
  | etifelse e1 e2 e3 => (e1.canEval && e1.normal) && (e2.normal && e3.normal)
  | etfor forloop => forloop.normal
  | etleftassign e1 e2 => e1.normal && e2.normal
  | etspecialassign e1 e2 => e1.normal && e2.normal
  | etrequest e1 e2 => (e1.canEval && e1.normal) && e2.normal
  | ettaggedexpr _ _ e => e.normal
  | etfunction formlist body => normals formlist && body.normal
  | etfuncall e el => (e.canEval && e.normal) && normals el
  | etarg _ e => e.normal

def normals : List E → Bool
  | [] => true
  | e :: el => e.normal && normals el

end

@[simp] theorem normals_iff {el : List E} : normals el = true ↔ ∀ e ∈ el, e.normal = true := by
  induction el with
  | nil => simp [normals]
  | cons e el ih => rw [normals, Bool.and_eq_true, ih, List.forall_mem_cons]

/-- What a one-element list is stripped to. -/
def strip : E → E
  | etexprlist [e] => e
  | e => e

theorem normal_strip (e : E) : e.strip.normal = e.normal := by
  unfold strip
  split
  · rw [normal, normals, normals, Bool.and_true]
  · rfl

end E

end Ztsdb.Lang
