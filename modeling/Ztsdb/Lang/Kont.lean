import Mathlib
import Ztsdb.Lang.Ast
import Ztsdb.Lib.Run

/-!
# Continuations

The interpreter takes an expression apart into continuations, each with what is evaluated
next, in which frame, and what is done with the value of the one before it. A call pushes a
frame and puts a sentinel behind its body; where the value of the body is applied, the
sentinel has a frame popped again.

Variables and values are not followed: a step finds them as they are by then, in whatever
way the steps before it and the responses to requests have left them. Neither is the flag for
a result that is not printed, nor the escape continuation, which is for errors.
-/

namespace Ztsdb.Lang.Interp

open E

/-- The assignment types of a continuation; `NORMAL` has none of them. -/
structure AssignType where
  isGlobal : Bool := false
  isEllipsis : Bool := false
  isWhile : Bool := false
  isCond : Bool := false
  isArg : Bool := false
  isEnd : Bool := false
  isRef : Bool := false
  deriving DecidableEq

/-- A builtin with its signature; `noEval` has the names of the arguments it takes as code. -/
structure Builtin where
  name : String
  formlist : List E
  noEval : List String
  evalEllipsis : Bool

inductive Control where
  | expr (e : E)
  | code (e : E)
  | invoke (b : Builtin)

/-- A continuation without its `next`. -/
structure Node where
  var : Option E
  control : Option Control
  r : Nat
  atype : AssignType

/-- A continuation and those behind it. -/
abbrev Kont : Type := List Node

/-- A frame: the one above it, its depth, and where a loop begins and where it goes on. -/
structure Frame where
  up : Option Nat
  depth : Nat
  bc : Option Kont
  cc : Option Kont

/-- A sentinel that was consumed: the frame pushed with it and the frame popped for it. -/
structure Pop where
  pushed : Nat
  popped : Nat
  deriving DecidableEq

/-- The current continuation; the frame stack, from its back; all frames there have been; and
the sentinels consumed so far. -/
structure State where
  k : Kont
  fstack : List Nat
  frames : List Frame
  pops : List Pop

/-! ## What a step finds -/

/-- Where a value goes. -/
inductive Place where
  | ellipsis (sym : String) (ref : Bool)
  | arg (sym : String) (ref : Bool)
  | special (sym : String)
  | symbol (sym : String) (ref : Bool)
  | last
  | nowhere

/-- What is called. -/
inductive Proc where
  | closure (formlist : List E) (body : E)
  | builtin (b : Builtin)

/-- What a builtin does: most have a value; some put code in front of what comes next. -/
inductive Act (V : Type) where
  | value (v : V)
  | tryCatch (expr : E)
  | doCall (f : E)
  | source (el : List E)

/-- The variables and values; nothing where there is an exception, or a value that has not
come yet. -/
structure Store (V : Type) where
  null : V
  isTrue : V → Option Bool
  evalAtom : Nat → E → Option V
  evalProc : Nat → E → Option Proc
  sendReq : Nat → E → E → Option V
  invoke : Nat → Builtin → Option (Act V)
  add : Nat → Place → V → Bool
  /-- The option `expressions`. -/
  expressions : Nat

/-! ## The arguments of a call -/

structure ArgInfo where
  name : E
  expr : E
  isFormal : Bool
  isEllipsis : Bool
  isRef : Bool

/-- The name of a formal argument. -/
def formalName : E → Option String
  | ettaggedexpr symb _ _ => some symb
  | etsymbol s _ => some s
  | _ => none

/-- Formal arguments with what they are matched to. -/
abbrev Slots : Type := List (E × Option ArgInfo)

/-- Match an actual argument to the formal argument of its name, if there is one; an error
when that is matched already. -/
def matchName (symb : String) (a : ArgInfo) : Slots → Option (Option Slots)
  | [] => some none
  | (f, slot) :: fs =>
    if formalName f = some symb then
      match slot with
      | none => some (some ((f, some a) :: fs))
      | some _ => none
    else (matchName symb a fs).map (Option.map ((f, slot) :: ·))

/-- The named arguments that match; and the others. -/
def matchNamed : List E → Slots → Option (Slots × List E)
  | [], fs => some (fs, [])
  | a :: el, fs =>
    match a with
    | ettaggedexpr symb ref e =>
      if symb = "" then (matchNamed el fs).map fun (fs, rest) => (fs, a :: rest)
      else
        match matchName symb ⟨etsymbol symb ref, e, false, false, ref⟩ fs with
        | none => none
        | some none => (matchNamed el fs).map fun (fs, rest) => (fs, a :: rest)
        | some (some fs) => matchNamed el fs
    | _ => (matchNamed el fs).map fun (fs, rest) => (fs, a :: rest)

/-- The formal argument that a positional argument or a default is for. -/
def formalVar : E → E
  | ettaggedexpr symb ref _ => etsymbol symb ref
  | f => f

/-- The other arguments in their order, then the defaults; what is part of the ellipsis comes
last. -/
def matchRest (hasEllipsis : Bool) : Slots → List E → Option (List ArgInfo × List ArgInfo)
  | [], [] => some ([], [])
  | [], _ :: _ => none
  | (_, some a) :: fs, el =>
    (matchRest hasEllipsis fs el).map fun (args, ell) => (a :: args, ell)
  | (f, none) :: fs, [] =>
    match f with
    | ettaggedexpr symb ref e =>
      (matchRest hasEllipsis fs []).map fun (args, ell) =>
        (⟨etsymbol symb ref, e, true, false, false⟩ :: args, ell)
    | etellipsis => matchRest hasEllipsis fs []
    | _ => none
  | (f, none) :: fs, ettaggedexpr symb ref e :: el =>
    if hasEllipsis then
      (matchRest hasEllipsis ((f, none) :: fs) el).map fun (args, ell) =>
        (args, ⟨etsymbol symb ref, e, false, true, ref⟩ :: ell)
    else none
  | (etellipsis, none) :: fs, etarg ref e :: el =>
    (matchRest hasEllipsis ((etellipsis, none) :: fs) el).map fun (args, ell) =>
      (args, ⟨etsymbol "" ref, e, false, true, ref⟩ :: ell)
  | (f, none) :: fs, etarg ref e :: el =>
    (matchRest hasEllipsis fs el).map fun (args, ell) =>
      (⟨formalVar f, e, false, false, ref⟩ :: args, ell)
  | (_, none) :: _, _ :: _ => none
termination_by fs el => fs.length + el.length

def isEllipsis : E → Bool
  | etellipsis => true
  | _ => false

def processArgs (fargs aargs : List E) : Option (List ArgInfo) :=
  (matchNamed aargs (fargs.map fun f => (f, none))).bind fun (fs, rest) =>
    (matchRest (fargs.any isEllipsis) fs rest).map fun (args, ell) => args ++ ell

/-! ## Continuations -/

/-- A continuation that evaluates. -/
def Node.normal (e : E) (r : Nat) : Node := ⟨none, some (.expr e), r, {}⟩

/-- The sentinel behind a call. -/
def Node.sentinel (r : Nat) : Node := ⟨none, none, r, { isEnd := true }⟩

/-- The value is assigned. -/
def setVar (e : E) (isGlobal : Bool) : Kont → Kont
  | [] => []
  | n :: k =>
    { n with var := some e, atype := { n.atype with isGlobal := n.atype.isGlobal || isGlobal } } :: k

/-- An assignment has its symbol evaluated for the value. -/
def buildKont (e : E) (r : Nat) (k : Kont) : Kont :=
  match e with
  | etleftassign e1 e2 => .normal e2 r :: setVar e1 false (.normal e1 r :: k)
  | etspecialassign e1 e2 => .normal e2 r :: setVar e1 true (.normal e1 r :: k)
  | e => .normal e r :: k

/-- One continuation after the other; an assignment is made by the next one. There is always
an expression in a list. -/
def buildElChain : List E → Nat → Kont → Option Kont
  | [], _, _ => none
  | [e], r, k => some (buildKont e r k)
  | e :: e' :: el, r, k =>
    (buildElChain (e' :: el) r k).map fun nk =>
      match e with
      | etleftassign e1 e2 => .normal e2 r :: setVar e1 false nk
      | etspecialassign e1 e2 => .normal e2 r :: setVar e1 true nk
      | e => .normal e r :: nk

/-- The expressions of a list, or one expression. -/
def buildBlock (e : E) (r : Nat) (k : Kont) : Option Kont :=
  match e with
  | etexprlist el => buildElChain el r k
  | e => some (buildKont e r k)

/-- What takes the value of an argument. -/
def Node.arg (fenv : Nat) (a : ArgInfo) : Node where
  var := some a.name
  control := none
  r := fenv
  atype := { isEllipsis := a.isEllipsis, isArg := !a.isEllipsis, isRef := a.isRef }

/-- An argument that is to be evaluated. -/
def argKonts (fenv r : Nat) (a : ArgInfo) : Kont :=
  [.normal a.expr (if a.isFormal then fenv else r), .arg fenv a]

namespace State

def up (s : State) (r : Nat) : Nat := (s.frames[r]?.bind Frame.up).getD 0

def depth (s : State) (r : Nat) : Nat := s.frames[r]?.elim 0 Frame.depth

/-- Push a new frame. -/
def push (s : State) (up : Nat) : State :=
  { s with
    fstack := s.frames.length :: s.fstack
    frames := s.frames ++ [⟨some up, s.depth up + 1, none, none⟩] }

/-- Reset the continuations of a frame. -/
def reset (s : State) (r : Nat) : State :=
  { s with frames := s.frames.modify r fun f => { f with bc := none, cc := none } }

end State

open Lib

/-- Go on with the body of a function, behind its arguments. -/
def enter (s : State) (body : Control) (fenv : Nat) (args : Kont) (k : Kont) : Next State :=
  .goes { s with k := args ++ ⟨none, some body, fenv, {}⟩ :: .sentinel fenv :: k }

/-- The arguments to be matched, when they are not those of a function that takes none. -/
def callArgs (formlist el : List E) : Option (List ArgInfo) :=
  match formlist, el with
  | [], [] => some []
  | [], _ :: _ => none
  | [etellipsis], [] => some []
  | fargs, aargs => processArgs fargs aargs

variable {V : Type} (σ : Store V)

def applyProc (formlist : List E) (body : E) (r : Nat) (el : List E) (k : Kont) (s : State) :
    Next State :=
  let fenv := s.frames.length
  let s := s.push r
  if σ.expressions ≤ s.depth fenv then .blocked
  else
    match callArgs formlist el with
    | none => .blocked
    | some args => enter s (.expr body) fenv (args.flatMap (argKonts fenv r)) k

/-- Whether an argument is taken as code. -/
def isCode (b : Builtin) (a : ArgInfo) : Bool :=
  if a.isEllipsis then !b.evalEllipsis
  else
    match a.name with
    | etsymbol s _ => s ∈ b.noEval
    | _ => false

def applyBuiltin (b : Builtin) (r : Nat) (el : List E) (k : Kont) (s : State) : Next State :=
  let fenv := s.frames.length
  match callArgs b.formlist el with
  | none => .blocked
  | some args =>
    enter (s.push r) (.invoke b) fenv
      ((args.filter fun a => !isCode b a).flatMap (argKonts fenv r)) k

/-- The value of the condition decides whether the body comes next. -/
def setCond : Kont → Kont
  | [] => []
  | n :: k => { n with atype := { n.atype with isCond := true } } :: k

/-- A loop has a frame of its own. -/
def insertWhile (e1 e2 : E) (r : Nat) (k : Kont) (s : State) : Next State :=
  let sr := s.frames.length
  let s := s.push r
  let nextk := ⟨k.head?.bind Node.var, some (.expr etnull), sr, { isWhile := true }⟩ :: k
  match (buildBlock e2 sr nextk).bind fun bodyk => buildBlock e1 sr (setCond bodyk) with
  | none => .blocked
  | some condk =>
    .goes { s with
      k := condk
      frames := s.frames.modify sr fun f => { f with bc := some condk, cc := some nextk } }

/-- Consume the sentinels in front; then the continuation and its next. -/
def popEnds : Node → Kont → State → Option (Node × Node × Kont × State)
  | _, [], _ => none
  | x, y :: k, s =>
    if y.atype.isEnd then
      match s.fstack with
      | [] => none
      | f :: fstack =>
        popEnds y k { s.reset x.r with fstack, pops := s.pops ++ [⟨y.r, f⟩] }
    else some (x, y, k, s)

/-- Where the value that the continuation `y` gets is assigned; not to what is no symbol. -/
def place (y : Node) (k : Kont) : Option Place :=
  if y.atype.isEllipsis then
    match y.var with
    | some (etsymbol s _) => some (.ellipsis s y.atype.isRef)
    | _ => some (.ellipsis "" y.atype.isRef)
  else
    match y.var with
    | some (etsymbol s _) =>
      if y.atype.isArg then some (.arg s y.atype.isRef)
      else if y.atype.isGlobal then some (.special s)
      else some (.symbol s y.atype.isRef)
    | some _ => none
    | none => some (if k = [] then .last else .nowhere)

/-- Which continuation is next, with a value for `y`. -/
def goOn (y : Node) (k : Kont) (v : V) (s : State) : Next State :=
  if y.atype.isCond then
    match σ.isTrue v with
    | none => .blocked
    | some true => .goes { s with k := y :: k }
    | some false =>
      match s.frames[y.r]?.bind Frame.cc with
      | none => .wild
      | some cc => .goes { s.reset y.r with k := cc }
  else if y.atype.isWhile then
    match s.frames[y.r]?.bind Frame.bc with
    | none => .wild
    | some bc => .goes { s with k := bc }
  else if y.control.isSome then .goes { s with k := y :: k }
  else .goes { s with k := if k = [] then [y] else k }

def applyKont (x : Node) (k : Kont) (v : V) (s : State) : Next State :=
  match popEnds x k s with
  | none => .wild
  | some (_, y, k, s) =>
    match place y k with
    | none => .blocked
    | some p => if σ.add y.r p v then goOn σ y k v s else .blocked

/-- A builtin is called in its frame. Code of `tryCatch` has a frame and a sentinel of its
own; code of `source` takes the place of the builtin's sentinel. -/
def invoke (b : Builtin) (x : Node) (k : Kont) (s : State) : Next State :=
  match σ.invoke x.r b with
  | none => .blocked
  | some (.value v) => applyKont σ x k v s
  | some (.tryCatch e) =>
    let r := s.frames.length
    applyKont σ x (.normal e r :: .sentinel r :: k) σ.null (s.push (s.up x.r))
  | some (.doCall f) => applyKont σ x (.normal f x.r :: k) σ.null s
  | some (.source el) =>
    match k with
    | _ :: z :: rest =>
      match buildElChain el z.r (z :: rest) with
      | none => .blocked
      | some k => applyKont σ x (.normal etnull z.r :: k) σ.null s
    | _ => .wild

def isAtomic : E → Bool
  | etnull | literal _ | etsymbol _ _ | etboundvar _ | etunop _ _ | etbinop _ _ _ _
  | etfunction _ _ => true
  | _ => false

/-- A step on an expression. -/
def stepExpr (e : E) (x : Node) (k : Kont) (s : State) : Next State :=
  if isAtomic e then
    match σ.evalAtom x.r e with
    | none => .blocked
    | some v => applyKont σ x k v s
  else
    match e with
    | etleftassign _ _ | etspecialassign _ _ => .goes { s with k := buildKont e x.r k }
    | etexprlist el | etfor (etexprlist el) =>
      match buildElChain el x.r k with
      | none => .blocked
      | some k => .goes { s with k }
    | etrequest e1 e2 =>
      match σ.sendReq x.r e1 e2 with
      | none => .blocked
      | some v => applyKont σ x k v s
    | etifelse e1 e2 e3 =>
      match (σ.evalAtom x.r e1).bind σ.isTrue with
      | none => .blocked
      | some true => .goes { s with k := .normal e2 x.r :: k }
      | some false => .goes { s with k := .normal e3 x.r :: k }
    | etfuncall e el =>
      match σ.evalProc x.r e with
      | none => .blocked
      | some (.closure formlist body) => applyProc σ formlist body x.r el k s
      | some (.builtin b) => applyBuiltin b x.r el k s
    | etwhile e1 e2 => insertWhile e1 e2 x.r k s
    | _ => .blocked

/-- A step; there is none when the last continuation is reached. -/
def step (s : State) : Next State :=
  match s.k with
  | [] => .wild
  | [_] => .blocked
  | x :: k =>
    match x.control with
    | none => .wild
    | some (.expr e) => stepExpr σ e x k s
    | some (.code e) => .goes { s with k := .normal e x.r :: k }
    | some (.invoke b) => invoke σ b x k s

/-- The evaluation of a program in a frame of some depth. -/
def start (e : E) (depth : Nat) : State :=
  ⟨[.normal e 0, ⟨none, none, 0, {}⟩], [0], [⟨none, depth, none, none⟩], []⟩

end Ztsdb.Lang.Interp
