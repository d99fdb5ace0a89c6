import Mathlib
import Ztsdb.Net.Value

/-!
# Reading values

`readValue` goes through a chunk with a stack of values that are being read. `idx` counts
those that are not complete yet: when it is the height of the stack, the next two words are
the head of a value; when the value above it is complete, it is put into its parent. The
list that goes with an array stays on the stack while the elements are read.

The loops of the elements stop at the end of the chunk. A loop that copies elements as they
lie there copies as many as are there whole, and goes round for ever when there are none.
-/

namespace Ztsdb.Net

open Ztsdb.Lib Ztsdb.Arr
open AppendMessage (getAlignedLength)

/-- `val::Value`, as far as it goes over the stream. -/
inductive Val where
  | std_string (s : List UInt8)
  | std_int (v : List UInt64)
  | array (a : VArray)
  | zts (idx a : VArray)
  | list (l : List (List UInt8 × Val))
  | null
  | named (name val : Val)
  | error (what : ZString)

structure ValState where
  val : Val
  exp : Nat
  n : Nat
  stage : Nat

/-- Where `readValue` is in a chunk. -/
structure Reader where
  off : Nat
  ss : List ValState
  idx : Nat

inductive ReadExn where
  | domainError (what : String)
  | outOfRange (what : String)
  | rangeError (what : String)
  | badGet
  deriving DecidableEq

/-- How a turn of the loop of `readValue` ends. -/
inductive Turn where
  | again (r : Reader)
  | leaves (r : Reader)
  | throws (e : ReadExn)
  /-- It reads what is not there. -/
  | faults
  /-- It never ends. -/
  | spins

/-- `isAtomic`. -/
def isAtomic : ValType → Except ReadExn Bool
  | .std_int | .std_string | .error => .ok true
  | .list | .clos | .builting | .string | .double | .bool | .time | .duration | .interval
  | .period | .zts | .future | .connection | .named => .ok false
  | _ => .error (.domainError "encode isAtomic: unknow type '")

/-- `isArray`. -/
def isArray : ValType → Bool
  | .string | .double | .bool | .time | .duration | .interval | .period | .zts => true
  | _ => false

/-- An array with room for no rows. -/
def VArray.empty (t : EltType) (dim : List idx_type) : VArray where
  type := t
  dim := dim
  names := dim.map fun _ => []
  v := List.replicate (Array.ncolsOf dim) ⟨true, []⟩

/-- `make_value`. -/
def make_value : ValType → Except ReadExn Val
  | .std_int => .ok (.std_int [])
  | .std_string => .ok (.std_string [])
  | .null => .ok .null
  | .list => .ok (.list [])
  | .double => .ok (.array (.empty .double [0, 1]))
  | .bool => .ok (.array (.empty .bool [0, 1]))
  | .string => .ok (.array (.empty .string [0, 1]))
  | .time => .ok (.array (.empty .time [0, 1]))
  | .duration => .ok (.array (.empty .duration [0, 1]))
  | .interval => .ok (.array (.empty .interval [0, 1]))
  | .period => .ok (.array (.empty .period [0, 1]))
  | .zts => .ok (.zts (.empty .time [0]) (.empty .double [0, 1]))
  | .named => .ok (.named (.std_string []) (.std_string []))
  | .error => .ok (.error ZString.empty)
  | t => .error (.domainError ("make_value: unknow type " ++ toString t.number))

/-! ## The elements of an array -/

/-- An element as it lies in memory. -/
def EltType.ofBytes (t : EltType) (bs : List UInt8) : Elt :=
  match t with
  | interval => .interval (UInt64.ofNat (leNat (slice 0 8 bs))) (UInt64.ofNat (leNat (slice 8 8 bs)))
      (UInt32.ofNat (leNat (slice 16 4 bs))) (UInt32.ofNat (leNat (slice 20 4 bs)))
  | period => .period (UInt32.ofNat (leNat (slice 0 4 bs))) (UInt32.ofNat (leNat (slice 4 4 bs)))
      (UInt64.ofNat (leNat (slice 8 8 bs)))
  | bool => .bool (decide (leNat bs ≠ 0))
  | _ => .word (UInt64.ofNat (leNat bs))

/-- The end of a loop over elements. -/
inductive EltLoop where
  | done (off n : Nat) (a : VArray)
  | throws (e : ReadExn)
  | faults
  | spins

/-- `memcpy` to the place `coloff` of a column. -/
def Column.copyTo (coloff : Nat) (xs : List Elt) (c : Column) : Column :=
  { c with v := c.v.take coloff ++ xs ++ c.v.drop (coloff + xs.length) }

/-- The loop of `readEltsFromBuffer`. -/
def copyElts (c : List UInt8) (exp col coloff off n : Nat) (a : VArray) : EltLoop :=
  if n < exp ∧ off < c.length then
    let ncopy := min (min (exp - n) ((c.length - off) / a.type.sizeof)) (a.nrows - coloff)
    match a.v[col]? with
    | none => .throws (.outOfRange "getcol: column out of range")
    | some column =>
      -- with nothing to copy every round is like the one before
      if ncopy = 0 then .spins
      else
        let xs := (List.range ncopy).map fun i =>
          a.type.ofBytes (slice (off + a.type.sizeof * i) a.type.sizeof c)
        let a' := { a with v := a.v.set col (column.copyTo coloff xs) }
        let off' := off + a.type.sizeof * ncopy
        if coloff + ncopy = a.nrows then copyElts c exp (col + 1) 0 off' (n + ncopy) a'
        else copyElts c exp col coloff off' (n + ncopy) a'
  else .done off n a
termination_by exp - n
decreasing_by
  all_goals
    exact Nat.sub_lt_sub_left (And.left ‹_›) (Nat.lt_add_of_pos_right (Nat.pos_of_ne_zero ‹_›))

/-- `getEltFromBuffer` of a string and of a bool; none where it reads behind the chunk. -/
def getEltFromBuffer (t : EltType) (c : List UInt8) (off : Nat) : Option (Elt × Nat) :=
  match readWord 8 c off with
  | none => none
  | some (w, off') =>
    match t with
    | .string =>
      if off' + w ≤ c.length then
        some (.string (ZString.ofString (slice off' w c)), off' + getAlignedLength w)
      else none
    | .bool => some (.bool (decide (w ≠ 0)), off')
    | _ => some (.word (UInt64.ofNat w), off')

/-- The loop of `readEltsFromBufferSlow`. -/
def readSlow (c : List UInt8) (exp col coloff off n : Nat) (a : VArray) : EltLoop :=
  if n < exp ∧ off < c.length then
    match getEltFromBuffer a.type c off with
    | none => .faults
    | some (x, off') =>
      match a.v[col]? with
      | none => .throws (.outOfRange "getcol: column out of range")
      | some column =>
        match column.setv_checkbefore coloff x with
        | none => .throws (.rangeError "subscript out of bounds")
        | some column' =>
          let a' := { a with v := a.v.set col column' }
          if coloff + 1 = a.nrows then readSlow c exp (col + 1) 0 off' (n + 1) a'
          else readSlow c exp col (coloff + 1) off' (n + 1) a'
  else .done off n a
termination_by exp - n

/-- `readEltsFromBuffer` on a little-endian machine. -/
def readEltsFromBuffer (c : List UInt8) (exp off n : Nat) (a : VArray) : EltLoop :=
  if a.dim = [] then .throws (.outOfRange "getdim: dimension out of range")
  else if a.nrows = 0 then .faults
  else
    let col := n / a.nrows
    let coloff := n % a.nrows
    if a.type.slow then readSlow c exp col coloff off n a else copyElts c exp col coloff off n a

/-! ## The list of an array -/

def Val.toInts : Val → Option (List UInt64)
  | .std_int v => some v
  | _ => none

def Val.toChars : Val → Option (List UInt8)
  | .std_string s => some s
  | _ => none

def Val.toList : Val → Option (List Val)
  | .list l => some (l.map fun x => x.2)
  | _ => none

/-- `convertFromList`: the extents, the names and the flags. -/
def convertFromList (v : Val) : Option (List idx_type × List (List ZString) × List UInt64) := do
  let lst ← v.toList
  let dim ← (← lst[0]?).toInts
  let namesList ← (← lst[1]?).toList
  let names ← namesList.mapM fun subl => do
    (← subl.toList).mapM fun s => ZString.ofString <$> s.toChars
  let ordered ← (← lst[2]?).toInts
  return (dim, names, ordered)

/-- An element of an array that is not initialised. -/
def EltType.init : EltType → Elt
  | .bool => .bool false
  | .interval => .interval 0 0 0 0
  | .period => .period 0 0 0
  | .string => .string ZString.empty
  | _ => .word 0

/-- The first dimension that the names do not fit. -/
def misnamed (dim : List idx_type) (names : List (List ZString)) : Option Nat :=
  (List.range dim.length).find? fun j =>
    let k := (names[j]?.map List.length).getD 0
    k != 0 && k != (dim[j]?.map UInt64.toNat).getD 0

/-- `Array(noinit, dim, names)`. -/
def VArray.noinit (t : EltType) (dim : List idx_type) (names : List (List ZString)) :
    Except ReadExn VArray :=
  match dim with
  | [] => .ok { type := t, dim := [], names := [], v := [] }
  | d :: _ =>
    if names.length ≠ 0 ∧ names.length ≠ dim.length then
      .error (.rangeError ("length of 'dimnames' [" ++ toString names.length ++
        "] must match that of 'dims' [" ++ toString dim.length ++ "]"))
    else
      match misnamed dim names with
      | some j => .error (.rangeError
          ("length of 'dimnames' [" ++ toString (j + 1) ++ "] not equal to array extent"))
      | none => .ok
          { type := t
            dim := dim
            names := (List.range dim.length).map fun j => (names[j]?).getD []
            v := List.replicate (Array.ncolsOf dim) ⟨true, List.replicate d.toNat t.init⟩ }

/-- `setOrdered` of the columns, one after the other. -/
def VArray.setOrdered (flags : List UInt64) (a : VArray) : Except ReadExn VArray :=
  if a.v.length < flags.length then .error (.outOfRange "getcol: column out of range")
  else .ok { a with
    v := a.v.mapIdx fun j c =>
      match flags[j]? with
      | some f => { c with ordered := decide (f ≠ 0) }
      | none => c }

/-! ## The cases of the loop -/

namespace Reader

/-- The value below `idx` gets another state. -/
def put (r : Reader) (vs : ValState) : Reader := { r with ss := r.ss.set (r.idx - 1) vs }

/-- `--idx`. -/
def complete (r : Reader) : Reader := { r with idx := r.idx - 1 }

/-- `ss.pop_back()`. -/
def pop (r : Reader) : Reader := { r with ss := r.ss.dropLast }

/-- The end of `readArray`. -/
def endArray (vs : ValState) (r : Reader) : Turn :=
  if vs.n = vs.exp then .again (r.put vs).pop.complete else .again (r.put vs)

/-- `readArray`. -/
def readArray (c : List UInt8) (vs : ValState) (a : VArray) (r : Reader) : Turn :=
  if vs.stage = 0 then
    match r.ss[r.idx]? with
    | none => .faults
    | some child =>
      match convertFromList child.val with
      | none => .throws .badGet
      | some (dim, names, ordered) =>
        match (VArray.noinit a.type dim names).bind (VArray.setOrdered ordered) with
        | .error e => .throws e
        | .ok a' => r.endArray { vs with val := .array a', stage := 1 }
  else if vs.stage = 1 then
    match readEltsFromBuffer c vs.exp r.off vs.n a with
    | .throws e => .throws e
    | .faults => .faults
    | .spins => .spins
    | .done off n a' =>
      let vs' := { vs with val := .array a', n }
      let r' := { r with off }
      if off = c.length ∧ n < vs.exp then .leaves (r'.put vs') else r'.endArray vs'
  else .throws (.domainError "invalid stage for array")

/-- The loop over the words of a vector of integers, of which `m` are missing. -/
def readInts (c : List UInt8) : Nat → Nat → List UInt64 → Option (Nat × Nat × List UInt64)
  | 0, off, v => some (0, off, v)
  | m + 1, off, v =>
    if off < c.length then
      match readWord 8 c off with
      | none => none
      | some (w, off') => readInts c m off' (v ++ [UInt64.ofNat w])
    else some (m + 1, off, v)

/-- A string or an error: `join` has what is there already, at the first stage nothing. -/
def readChars (c : List UInt8) (vs : ValState) (join : List UInt8 → Val) (r : Reader) : Turn :=
  let readLen := if r.off ≤ c.length then min vs.exp (c.length - r.off) else vs.exp
  if c.length < r.off + readLen then .faults
  else
    let alen := getAlignedLength readLen
    let vs' := { vs with val := join (slice r.off readLen c), n := vs.n + alen, stage := 1 }
    let r' := { r with off := r.off + alen }
    .again (if vs.exp ≤ vs'.n then (r'.put vs').complete else r'.put vs')

/-- An element of a list. -/
def readList (vs : ValState) (l : List (List UInt8 × Val)) (r : Reader) : Turn :=
  if vs.n < vs.exp then
    match r.ss[r.idx]? with
    | none => .throws (.outOfRange "no element for list")
    | some child =>
      let item := match child.val with
        | .named name v => name.toChars.map fun nm => (nm, v)
        | v => some ([], v)
      match item with
      | none => .throws .badGet
      | some x =>
        let vs' := { vs with val := .list (l ++ [x]), n := vs.n + 1 }
        let r' := (r.put vs').pop
        .again (if vs'.n = vs.exp then r'.complete else r')
  else .again (if vs.n = vs.exp then r.complete else r)

/-- `zts(rsv, dim)`, with the array in it. -/
def readZts (vs : ValState) (a : VArray) (r : Reader) : Turn :=
  match vs.stage, r.ss[r.idx]? with
  | 0, none => .faults
  | 0, some child =>
    match child.val with
    | .array d =>
      if d.type = .double then
        .again (r.put { vs with
          val := .zts (.empty .time [(d.dim[0]?).getD 0]) d, n := vs.n + 1, stage := 1 }).pop
      else .throws .badGet
    | _ => .throws .badGet
  | 1, none => .faults
  | 1, some child =>
    match child.val with
    | .array i =>
      if i.type = .time then
        .again (r.put { vs with val := .zts i a, n := vs.n + 1 }).pop.complete
      else .throws .badGet
    | _ => .throws .badGet
  | _, _ => .again r

/-- A part of a named value. -/
def readNamed (vs : ValState) (name v : Val) (r : Reader) : Turn :=
  if vs.exp ≠ 2 then .throws (.domainError "readValue: invalid VNamed exp")
  else
    match vs.n, r.ss[r.idx]? with
    | 0, none => .faults
    | 0, some child => .again (r.put { vs with val := .named child.val v, n := 1 }).pop
    | 1, none => .faults
    | 1, some child => .again (r.put { vs with val := .named name child.val, n := 2 }).pop.complete
    | _, _ => .throws (.domainError "readValue: invalid VNamed n")

/-- What is done by the kind of a value that is not complete. -/
def switch (c : List UInt8) (vs : ValState) (r : Reader) : Turn :=
  match vs.val with
  | .std_int v =>
    match readInts c (vs.exp - vs.n) r.off v with
    | none => .faults
    | some (m, off, v') =>
      let r' := { r with off }.put { vs with val := .std_int v', n := vs.exp - m }
      .again (if m = 0 then r'.complete else r')
  | .std_string s => r.readChars c vs fun t => .std_string (if vs.stage = 0 then t else s ++ t)
  | .error what =>
    r.readChars c vs fun t => .error (ZString.ofString (if vs.stage = 0 then t else what.chars ++ t))
  | .null => .again r.complete
  | .array a => r.readArray c vs a
  | .list l => r.readList vs l
  | .zts _ a => r.readZts vs a
  | .named name v => r.readNamed vs name v

/-- The rest of a turn. -/
def body (c : List UInt8) (r : Reader) : Turn :=
  if r.idx = 0 then .faults
  else
    match r.ss[r.idx - 1]? with
    | none => .faults
    | some vs =>
      if r.off = c.length ∧ vs.n ≠ vs.exp ∧ r.idx = r.ss.length then .leaves r
      else r.switch c vs

/-- A turn of the loop. -/
def turn (c : List UInt8) (r : Reader) : Turn :=
  if r.idx = r.ss.length then
    match readWord 8 c r.off with
    | none => .faults
    | some (w, off) =>
      match readWord 8 c off with
      | none => .faults
      | some (vtlen, off) =>
        match ValType.ofNumber w with
        | none => .throws (.domainError ("make_value: unknow type " ++ toString w))
        | some vt =>
          match make_value vt with
          | .error e => .throws e
          | .ok v =>
            let r' : Reader := { off, ss := r.ss ++ [⟨v, vtlen, 0, 0⟩], idx := r.idx + 1 }
            if isArray vt then .again r'
            else if vtlen = 0 then r'.body c
            else
              match isAtomic vt with
              | .error e => .throws e
              | .ok true => r'.body c
              | .ok false => .again r'
  else r.body c

/-- The condition of the loop. -/
def Goes (c : List UInt8) (r : Reader) : Prop :=
  r.off < c.length ∨ 0 < r.idx ∧ r.idx < r.ss.length

instance (c : List UInt8) (r : Reader) : Decidable (r.Goes c) :=
  inferInstanceAs (Decidable (_ ∨ _))

end Reader

/-- How `readValue` ends. -/
inductive ReadEnd where
  | returns (r : Reader)
  | throws (e : ReadExn)
  | faults

/-- `readValue`, for a number of turns. -/
def readValue (c : List UInt8) : Nat → Reader → Option ReadEnd
  | 0, _ => none
  | k + 1, r =>
    if r.Goes c then
      match r.turn c with
      | .again r' => readValue c k r'
      | .leaves r' => some (.returns r')
      | .throws e => some (.throws e)
      | .faults => some .faults
      | .spins => none
    else some (.returns r)

/-- From a chunk on, each call of `readValue` comes to an end. A call that throws ends the
message. -/
def Receives : Reader → List (List UInt8) → Prop
  | _, [] => True
  | r, c :: cs =>
    (∃ k e, readValue c k r = some (.throws e)) ∨
      ∃ k r', readValue c k r = some (.returns r') ∧ Receives { r' with off := 0 } cs

/-- An array is sent behind what is in the chunk, and that is followed by nothing; each of
the chunks is read, the first one from the array on. -/
def ReadTerminates (front : List UInt8) (a : VArray) : Prop :=
  ∃ ec, writeTokens a.tokens ⟨[], front⟩ = some ec ∧
    Receives ⟨front.length, [], 0⟩ (ec.sent ++ [ec.buf])

end Ztsdb.Net
