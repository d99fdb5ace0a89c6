import Mathlib
import Ztsdb.Lang.Kont
import Ztsdb.Lib.Outcome

/-!
# Matching the arguments of a call

The actual arguments that are tagged with the name of a formal argument go to it. The others go
to the formal arguments that are left, in order and as far as the ellipsis; what is still left of
them is part of the ellipsis. Formal arguments without an actual one get their default.

The code goes along both lists with cursors that leave out what is marked as used. The result has
a slot for every formal argument other than the ellipsis, so that the ones behind it move down by
one, and the arguments of the ellipsis come after the slots. A slot that has not been written is
`none`. Tagged and plain arguments are all there are; anything else ends in an assertion.

`to_string` is what the messages show of an expression.
-/

namespace Ztsdb.Lang.Args

open E Interp Ztsdb.Lib Ztsdb.Lib.Outcome

inductive Exn where
  | evalException (what : String)
  | rangeError (what : String)

/-- The loop of `processFormlist`. -/
def processFrom : Nat → List E → List (String × Nat) → Int → Except Exn (List (String × Nat) × Int)
  | _, [], argMap, ellipsisPos => .ok (argMap, ellipsisPos)
  | n, e :: eln, argMap, ellipsisPos =>
    match formalName e with
    | some symb =>
      match argMap.lookup symb with
      | some _ => .error (.rangeError ("repeated formal argument '" ++ symb ++ "'"))
      | none => processFrom (n + 1) eln (argMap ++ [(symb, n)]) ellipsisPos
    | none =>
      if ellipsisPos ≠ -1 then .error (.rangeError "repeated formal argument '...'")
      else processFrom (n + 1) eln argMap n

/-- `processFormlist`: the places of the names, and that of the ellipsis or -1. -/
def processFormlist (formlist : List E) : Except Exn (List (String × Nat) × Int) :=
  processFrom 0 formlist [] (-1)

/-! ## The cursors -/

/-- The index of an argument, or -1, and the list from it on. -/
structure Cursor where
  idx : Int
  eln : List E

/-- The loop of `getUnused`, at the argument `e`. -/
def skipUsed (uargs : List Bool) : Nat → E → List E → Outcome Exn Unit Cursor
  | idx, e, eln =>
    match uargs[idx]? with
    | none => .fault
    | some false => .ok ⟨idx, e :: eln⟩ ()
    | some true =>
      match eln with
      | [] => .ok ⟨-1, [e]⟩ ()
      | e' :: eln => skipUsed uargs (idx + 1) e' eln

def getUnused (c : Cursor) (uargs : List Bool) : Outcome Exn Unit Cursor :=
  match c.eln with
  | [] => .ok ⟨-1, []⟩ ()
  | e :: eln =>
    if c.idx < 0 then skipUsed uargs 0 e eln
    else
      match eln with
      | [] => .ok ⟨-1, [e]⟩ ()
      | e' :: eln => skipUsed uargs (c.idx.toNat + 1) e' eln

/-! ## The three steps -/

/-- The slot of formal argument `idx`. -/
def slot (ellipsisPos : Int) (idx : Nat) : Nat :=
  if 0 ≤ ellipsisPos ∧ ellipsisPos < idx then idx - 1 else idx

/-- `res[i] = a`. -/
def put (i : Nat) (a : ArgInfo) (res : List (Option ArgInfo)) :
    Outcome Exn Unit (List (Option ArgInfo)) :=
  if i < res.length then .ok (res.set i (some a)) () else .fault

/-- What is used, and the result. -/
structure Used where
  ufargs : List Bool
  ugargs : List Bool
  res : List (Option ArgInfo)

/-- Extract named actual args that match in formal args. -/
def extractNamed (ellipsisPos : Int) (fargsMap : List (String × Nat)) :
    Nat → List E → Used → Outcome Exn Unit Used
  | _, [], s => .ok s ()
  | n, a :: geln, s =>
    match a with
    | ettaggedexpr symb ref e =>
      match if symb ≠ "" then fargsMap.lookup symb else none with
      | none => extractNamed ellipsisPos fargsMap (n + 1) geln s
      | some idx =>
        match s.ufargs[idx]? with
        | none => .fault
        | some true =>
          .throw (.evalException
            ("formal argument \"" ++ symb ++ "\" matched by multiple actual arguments")) ()
        | some false =>
          (put (slot ellipsisPos idx) ⟨etsymbol symb ref, e, false, false, ref⟩ s.res).bind
            fun res _ => extractNamed ellipsisPos fargsMap (n + 1) geln
              { ufargs := s.ufargs.set idx true, ugargs := s.ugargs.set n true, res }
    | _ => extractNamed ellipsisPos fargsMap (n + 1) geln s

/-- The cursors on both lists, and the result. -/
structure Places where
  f : Cursor
  g : Cursor
  res : List (Option ArgInfo)

variable (to_string : E → String)

/-- The actual argument at the cursor is used, and the cursor on the formal ones moves when it
goes to one of them. -/
def consume (ellipsisPos : Int) (ufargs : List Bool) (s : Places) : Outcome Exn Unit Places :=
  match s.f.eln, s.g.eln with
  | f :: _, a :: _ =>
    match a with
    | ettaggedexpr symb ref e =>
      if ellipsisPos ≠ -1 then
        .ok { s with res := s.res ++ [some ⟨etsymbol symb ref, e, false, true, ref⟩] } ()
      else .throw (.evalException ("unused argument (" ++ to_string a ++ ")")) ()
    | etarg ref e =>
      if isEllipsis f then
        .ok { s with res := s.res ++ [some ⟨etsymbol "" ref, e, false, true, ref⟩] } ()
      else
        (put s.f.idx.toNat ⟨formalVar f, e, false, false, ref⟩ s.res).bind fun res _ =>
          (getUnused s.f ufargs).bind fun f _ => .ok { s with f, res } ()
    | _ => .fault
  | _, _ => .fault

/-- Consume actual args by position matching in the formal args, at most so many of them. -/
def consumeAll (ellipsisPos : Int) (ufargs ugargs : List Bool) :
    Nat → Places → Outcome Exn Unit Places
  | 0, _ => .fault
  | fuel + 1, s =>
    if 0 ≤ s.f.idx ∧ 0 ≤ s.g.idx then
      (consume to_string ellipsisPos ufargs s).bind fun s _ =>
        (getUnused s.g ugargs).bind fun g _ =>
          consumeAll ellipsisPos ufargs ugargs fuel { s with g }
    else .ok s ()

/-- The leftovers in the formal arguments get their defaults. -/
def findDefaults (ellipsisPos : Int) (ufargs : List Bool) (geln : List E) :
    Nat → Cursor → List (Option ArgInfo) → Outcome Exn Unit (List (Option ArgInfo))
  | 0, _, _ => .fault
  | fuel + 1, c, res =>
    if 0 ≤ c.idx then
      match c.eln with
      | [] => .fault
      | f :: _ =>
        match f with
        | ettaggedexpr symb ref e =>
          (put (slot ellipsisPos c.idx.toNat) ⟨etsymbol symb ref, e, true, false, false⟩ res).bind
            fun res _ => (getUnused c ufargs).bind fun c _ =>
              findDefaults ellipsisPos ufargs geln fuel c res
        | etellipsis =>
          (getUnused c ufargs).bind fun c _ => findDefaults ellipsisPos ufargs geln fuel c res
        | f =>
          if geln ≠ [] then .throw (.evalException ("argument missing: " ++ to_string f)) ()
          else .throw (.rangeError ("argument missing: " ++ to_string f)) ()
    else .ok res ()

def processArgs (ellipsisPos : Int) (fargsMap : List (String × Nat)) (fargs aargs : List E) :
    Outcome Exn Unit (List (Option ArgInfo)) :=
  (extractNamed ellipsisPos fargsMap 0 aargs
    { ufargs := List.replicate fargs.length false
      ugargs := List.replicate aargs.length false
      res := List.replicate (if 0 ≤ ellipsisPos then fargs.length - 1 else fargs.length) none
      }).bind fun s _ =>
    (getUnused ⟨-1, fargs⟩ s.ufargs).bind fun f _ =>
      (getUnused ⟨-1, aargs⟩ s.ugargs).bind fun g _ =>
        (consumeAll to_string ellipsisPos s.ufargs s.ugargs (aargs.length + 1)
          ⟨f, g, s.res⟩).bind fun p _ =>
          if 0 ≤ p.g.idx then
            match p.g.eln with
            | [] => .fault
            | a :: _ => .throw (.evalException ("unused argument (" ++ to_string a ++ ")")) ()
          else findDefaults to_string ellipsisPos s.ufargs p.g.eln (fargs.length + 1) p.f p.res

end Ztsdb.Lang.Args
