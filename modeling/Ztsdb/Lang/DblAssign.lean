import Mathlib
import Ztsdb.Lib.Outcome

/-!
# Assigning through a path

`x[[path]] <- b` on a list goes down the path to an element and overwrites it. When the path ends
at a position of a vector, the vector is assigned first, and then overwritten as well. Without a
value to assign, an element of the outermost list is removed, wherever the path has led to. All
names are looked up in the outermost list.

What is thrown on the way is caught. Where the last name of a path was not found, the list that
had been reached gets a new element; its name is the one at the index that was found last.

Reading from an empty list is not checked, as the check subtracts one from its size. Values here
are the contents alone: lists with their names, vectors with the type of their elements. A list
without names has an empty list of them.
-/

namespace Ztsdb.Lang.DblAssign

open Ztsdb.Lib Ztsdb.Lib.Outcome

inductive Exn where
  | evalException (what : String)
  | outOfRange (what : String)
  | rangeError (what : String)
  | domainError (what : String)

/-- Values over element types `El`, indexed by `K`. -/
inductive Value (K : Type) (El : K → Type) where
  | null
  | atom (k : K) (v : List (El k))
  | list (v : List (Value K El)) (names : List String)

/-! ## Names -/

/-- `operator[](s)` of the names: the first place of a name. -/
def place (names : List String) (s : String) : Option Nat :=
  if s = "" then none else names.findIdx? fun t => t = s

/-- No names when all of them are empty. -/
def someNames (names : List String) : List String :=
  if names.all fun s => s = "" then [] else names

/-- `assign(j, s)`, for `sz` places. -/
def assignName (sz j : Nat) (s : String) (names : List String) : List String :=
  if s = "" ∧ names = [] then names
  else if names = [] then (List.replicate sz "").set j s
  else someNames (names.set j s)

/-- `addafter(s)`, behind `sz` places. -/
def addName (sz : Nat) (s : String) (names : List String) : List String :=
  if s = "" ∧ names = [] then names
  else (if names = [] then List.replicate sz "" else names) ++ [s]

namespace Value

variable {K : Type} {El : K → Type}

def isNull : Value K El → Bool
  | null => true
  | _ => false

def isList : Value K El → Bool
  | list _ _ => true
  | _ => false

/-- The loop of `remove`, for `k` places from `j` on. -/
def shiftDown : Nat → Nat → List (Value K El) → List String → List (Value K El) × List String
  | 0, _, v, names => (v, names)
  | k + 1, j, v, names =>
    shiftDown k (j + 1) (match v[j + 1]? with | some y => v.set j y | none => v)
      (assignName v.length j (names.getD (j + 1) "") names)

/-- `VList::remove(i)`. -/
def remove (i : Nat) (v : List (Value K El)) (names : List String) : Value K El :=
  let p := shiftDown (v.length - 1 - i) i v names
  list (p.1.take (v.length - 1)) (someNames (p.2.take (v.length - 1)))

/-- What a pointer points to: the places from list to list. -/
def get? : Value K El → List Nat → Option (Value K El)
  | x, [] => some x
  | list v _, n :: q => (v[n]?).bind fun y => y.get? q
  | _, _ :: _ => none

/-- A write through a pointer. -/
def put : Value K El → List Nat → Value K El → Value K El
  | _, [], b => b
  | list v names, n :: q, b =>
    match v[n]? with
    | some y => list (v.set n (y.put q b)) names
    | none => list v names
  | x, _ :: _, _ => x

end Value

open Value

/-! ## The assignment -/

/-- The index: positions, from 0 on, or names. -/
inductive Index where
  | int (vi : List Nat)
  | names (vs : List String)

def Index.size : Index → Nat
  | int vi => vi.length
  | names vs => vs.length

/-- `getfirst`, and the `u`-th `getnext` behind it: nothing at the end of the path. -/
def Index.next (names : List String) (u : Nat) : Index → Except Exn (Option Nat)
  | int vi => .ok vi[u]?
  | .names vs =>
    match vs[u]? with
    | none => .ok none
    | some s =>
      match place names s with
      | none => .error (.rangeError "subscript out of bounds")
      | some n => .ok (some n)

variable {K : Type} {El : K → Type} (convert : (k k' : K) → El k' → Option (El k))

/-- `subassignHelper` of one position of a vector. Lists are gone into, and not passed to it. -/
def subassignHelper (a b : Value K El) (p : Nat) : Except Exn (Value K El) :=
  match a with
  | atom k v =>
    match b with
    | atom k' w =>
      if 1 < w.length then
        .error (.rangeError "number of items to replace is not equal to the replacement length")
      else
        match w[0]? with
        | none => .error (.rangeError "subscript out of bounds")
        | some y =>
          match convert k k' y with
          | none => .error (.rangeError "conversion not defined")
          | some y => if p < v.length then .ok (atom k (v.set p y))
              else .error (.outOfRange "subscript out of bounds")
    | _ => .error (.rangeError "conversion not defined")
  | null => .error (.domainError "NULL cannot be subassigned")
  | list _ _ => .error (.domainError "list cannot be subassigned")

/-- The value, the pointer into it, and the counters. -/
structure St (K : Type) (El : K → Type) where
  val : Value K El
  a : List Nat
  iv : Nat
  u : Nat

/-- `a = &l.get()->a.getcol(0)[iv]`. -/
def follow (iv : Nat) (s : St K El) : Outcome Exn (St K El) Unit :=
  match s.val.get? s.a with
  | some (list v _) =>
    if v.length = 0 then .fault
    else if iv < v.length then .ok () { s with a := s.a ++ [iv], iv }
    else .throw (.outOfRange "subscript out of bounds") { s with iv }
  | _ => .fault

def recursiveFailed (u : Nat) : Exn :=
  .outOfRange ("recursive indexing failed at level " ++ toString (u + 1))

/-- A round: one step further, or into a vector with the last index. -/
def round (i : Index) (b : Value K El) (iv : Nat) (s : St K El) : Outcome Exn (St K El) Unit :=
  match s.val.get? s.a with
  | none => .fault
  | some (list _ _) => follow iv s
  | some leaf =>
    if s.u = i.size - 1 then
      match subassignHelper convert leaf b iv with
      | .error e => .throw e { s with iv }
      | .ok leaf => .ok () { s with val := s.val.put s.a leaf, iv }
    else .throw (recursiveFailed s.u) { s with iv }

/-- The rounds for the rest of the path. -/
def descend (names : List String) (i : Index) (b : Value K El) :
    Nat → St K El → Outcome Exn (St K El) Unit
  | 0, s => .ok () s
  | k + 1, s =>
    match i.next names s.u with
    | .error e => .throw e s
    | .ok none => .ok () s
    | .ok (some iv) =>
      (round convert i b iv s).bind fun _ s => descend names i b k { s with u := s.u + 1 }

/-- The first step. -/
def first (names : List String) (i : Index) (s : St K El) : Outcome Exn (St K El) Unit :=
  match i.next names 0 with
  | .error e => .throw e s
  | .ok none => .throw (.evalException "invalid index") s
  | .ok (some iv) => follow iv s

/-- At the end of the path an element is removed or overwritten. -/
def write (b : Value K El) (s : St K El) : Outcome Exn (St K El) Unit :=
  if b.isNull then
    match s.val with
    | list v names => .ok () { s with val := remove s.iv v names }
    | _ => .fault
  else .ok () { s with val := s.val.put s.a b }

/-- What is tried. -/
def assignThrough (names : List String) (i : Index) (b : Value K El) (s : St K El) :
    Outcome Exn (St K El) Unit :=
  (first names i s).bind fun _ s =>
    (descend convert names i b (i.size - 1) { s with u := 1 }).bind fun _ s => write b s

/-- The handler: a name that does not exist extends the list in the last position. -/
def extend (i : Index) (b : Value K El) (s : St K El) : Outcome Exn (St K El) Unit :=
  match i with
  | .names vs =>
    if s.u + 1 = vs.length then
      match vs[s.iv]?, s.val.get? s.a with
      | some name, some (list v names) =>
        .ok () { s with val := s.val.put s.a (list (v ++ [b]) (addName v.length name names)) }
      | some _, some _ => .throw (recursiveFailed s.u) s
      | _, _ => .fault
    else .throw (recursiveFailed s.u) s
  | .int _ => .throw (recursiveFailed s.u) s

/-- `dblsubassignHelper` of a list. -/
def dblsubassignHelper (v : List (Value K El)) (names : List String) (i : Index)
    (b : Value K El) : Outcome Exn (Value K El) Unit :=
  ((assignThrough convert names i b ⟨list v names, [], 0, 0⟩).tryCatch fun _ s =>
    extend i b s).mapState St.val

/-! ## Reading -/

/-- `l.get()->a.getcol(0)[iv]`, to go on from. -/
def atPlace (v : List (Value K El)) (iv : Nat)
    (k : Value K El → Outcome Exn Unit (Value K El)) : Outcome Exn Unit (Value K El) :=
  if v.length = 0 then .fault
  else
    match v[iv]? with
    | some a => k a
    | none => .throw (.outOfRange "subscript out of bounds") ()

/-- The loop of `dblsubsetHelper`: a vector is read at once. -/
def readFrom (names : List String) (i : Index) :
    Nat → Nat → Value K El → Outcome Exn Unit (Value K El)
  | 0, _, a => .ok a ()
  | k + 1, u, a =>
    match i.next names u with
    | .error e => .throw e ()
    | .ok none => .ok a ()
    | .ok (some iv) =>
      match a with
      | list v _ => atPlace v iv fun a => readFrom names i k (u + 1) a
      | atom k v =>
        match v[iv]? with
        | some y => .ok (atom k [y]) ()
        | none => .throw (.rangeError "subscript out of bounds") ()
      | null => .throw (.domainError "NULL cannot be double subsetted") ()

/-- `dblsubsetHelper` of a list. -/
def dblsubsetHelper (v : List (Value K El)) (names : List String) (i : Index) :
    Outcome Exn Unit (Value K El) :=
  match i.next names 0 with
  | .error e => .throw e ()
  | .ok none => .throw (.evalException "invalid index") ()
  | .ok (some iv) => atPlace v iv fun a => readFrom names i (i.size - 1) 1 a

end Ztsdb.Lang.DblAssign
