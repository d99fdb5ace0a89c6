import Mathlib
import Ztsdb.Arr.Make
import Ztsdb.Net.Encode

/-!
# Arrays on the stream

A value goes out as its type, then a length, then what belongs to it; before the type the
chunk is sent if the two words would not leave some of it. An array is its size, a list
with its extents, names and flags, and its elements column by column. An element goes out
field by field, so that a chunk can end inside it.

What is sent is a list of `Token`s here: `room` is the look at the chunk before a value,
`chars` the characters of a string behind its length. An item is the tokens from one value
to the next, or those of an element.
-/

namespace Ztsdb.Net

open Ztsdb.Lib Ztsdb.Arr
open AppendMessage (getAlignedLength)

/-- `val::ValType`, in the order of its numbers. -/
inductive ValType where
  | std_string | std_int | double | bool | time | duration | interval | period | string | zts
  | list | null | code | clos | builting | future | connection | timer | named | error | ptr
  deriving DecidableEq

namespace ValType

def all : List ValType :=
  [std_string, std_int, double, bool, time, duration, interval, period, string, zts,
    list, null, code, clos, builting, future, connection, timer, named, error, ptr]

def number (t : ValType) : Nat := all.idxOf t

/-- The type of a number; a number behind the last one has none. -/
def ofNumber (n : Nat) : Option ValType := all[n]?

@[simp] theorem ofNumber_number (t : ValType) : ofNumber t.number = some t := by
  cases t <;> rfl

theorem number_lt (t : ValType) : t.number < 256 ^ 8 := by
  cases t <;> decide

end ValType

/-- The element types of an array. -/
inductive EltType where
  | double | bool | time | duration | interval | period | string
  deriving DecidableEq

namespace EltType

def valType : EltType → ValType
  | double => .double
  | bool => .bool
  | time => .time
  | duration => .duration
  | interval => .interval
  | period => .period
  | string => .string

/-- The element types that are read one element at a time. -/
def slow : EltType → Bool
  | bool | string => true
  | _ => false

/-- `sizeof`, for those that are copied. -/
def sizeof : EltType → Nat
  | interval => 24
  | period => 16
  | _ => 8

end EltType

/-- An element. A double, a time and a duration are their 64 bits. -/
inductive Elt where
  | word (n : UInt64)
  | bool (b : Bool)
  | interval (s e : UInt64) (sopen eopen : UInt32)
  | period (months days : UInt32) (dur : UInt64)
  | string (s : ZString)
  deriving DecidableEq

namespace Elt

def HasType : Elt → EltType → Prop
  | word _, t => t = .double ∨ t = .time ∨ t = .duration
  | bool _, t => t = .bool
  | interval .., t => t = .interval
  | period .., t => t = .period
  | string _, t => t = .string

/-- `std::less`, for those that are read one at a time. -/
def less : Elt → Elt → Bool
  | bool a, bool b => lessBool a b
  | string a, string b => ZString.less a b
  | _, _ => false

end Elt

/-- A column, with its flag. -/
structure Column where
  ordered : Bool
  v : List Elt

/-- `setv_checkbefore`. -/
def Column.setv_checkbefore (i : Nat) (t : Elt) (c : Column) : Option Column :=
  if c.v.length ≤ i then none
  else
    let v := c.v.set i t
    some { v, ordered := c.ordered && (i == 0 || (v[i - 1]?.any fun x => x.less t)) }

/-- An array, as far as it goes over the stream. -/
structure VArray where
  type : EltType
  dim : List idx_type
  names : List (List ZString)
  v : List Column

namespace VArray

def nrows (a : VArray) : Nat := (a.dim.map UInt64.toNat).headD 0

def size (a : VArray) : Nat := wrap (a.v.length * a.nrows)

/-- What the constructors of an array see to, and that it is in memory. -/
structure Valid (a : VArray) : Prop where
  ncols : a.v.length = Array.ncolsOf a.dim
  nrows : ∀ c ∈ a.v, c.v.length = a.nrows
  types : ∀ c ∈ a.v, ∀ x ∈ c.v, x.HasType a.type
  names : a.names.length = a.dim.length
  named : ∀ (j : Nat) (h : j < a.names.length) (d : idx_type), a.dim[j]? = some d →
    a.names[j] = [] ∨ a.names[j].length = d.toNat
  memory : a.v.length * a.nrows < 2 ^ 64
  columns : a.v.length < 2 ^ 64
  dims : a.dim.length < 2 ^ 64

end VArray

/-! ## What is written -/

inductive Token where
  | room
  | word (k n : Nat)
  | chars (t : List UInt8)

namespace Token

/-- Whether the chunk that is filled to an offset is sent before it. -/
def Breaks (off : Nat) : Token → Prop
  | room => CHUNKSZ ≤ off + 16
  | word k _ => CHUNKSZ < off + k
  | chars _ => False

instance (off : Nat) : (t : Token) → Decidable (t.Breaks off)
  | room => inferInstanceAs (Decidable (_ ≤ _))
  | word _ _ => inferInstanceAs (Decidable (_ < _))
  | chars _ => inferInstanceAs (Decidable False)

/-- The characters of a string do not reach the end of the chunk. -/
def Fits (off : Nat) : Token → Prop
  | chars t => t = [] ∨ t.length < CHUNKSZ - off ∧ off + getAlignedLength t.length ≤ CHUNKSZ
  | _ => True

instance (off : Nat) : (t : Token) → Decidable (t.Fits off)
  | room => inferInstanceAs (Decidable True)
  | word _ _ => inferInstanceAs (Decidable True)
  | chars _ => inferInstanceAs (Decidable (_ ∨ _))

def image : Token → List UInt8
  | room => []
  | word k n => leBytes k n
  | chars t => t ++ List.replicate (getAlignedLength t.length - t.length) 0

def write : Token → Encode → Option Encode
  | room, ec => some (if CHUNKSZ ≤ ec.offset + 16 then ec.flush else ec)
  | word k n, ec => some (ec.put k n)
  | chars t, ec => Encode.copyString t t.length ec

end Token

/-- The tokens in a row. -/
def writeTokens : List Token → Encode → Option Encode
  | [], ec => some ec
  | t :: ts, ec => (t.write ec).bind (writeTokens ts)

/-- `operator<<` of a value: a content that begins with the length. -/
def value (vt : ValType) (content : List Token) : List Token :=
  .room :: .word 8 vt.number :: content

/-- `operator<<` of a string. -/
def stringTokens (s : List UInt8) : List Token := [.word 8 s.length, .chars s]

/-- `operator<<` of a vector of integers. -/
def intsTokens (v : List UInt64) : List Token :=
  .word 8 v.length :: v.map fun x => .word 8 x.toNat

/-- The items of a named value: the pair, its name, and then the value. -/
def namedItems (name : List UInt8) (v : List (List Token)) : List (List Token) :=
  value .named [.word 8 2] :: value .std_string (stringTokens name) :: v

/-- The items of a list. -/
def listItems (l : List (List UInt8 × List (List Token))) : List (List Token) :=
  value .list [.word 8 l.length] :: l.flatMap fun x => namedItems x.1 x.2

/-- The list that goes with an array: extents, `convertToList` of the names,
`getOrderedVector`. -/
def VArray.metaItems (a : VArray) : List (List Token) :=
  listItems
    [([], [value .std_int (intsTokens a.dim)]),
      ([], listItems (a.names.map fun nm =>
        ([], listItems (nm.map fun s => ([], [value .std_string (stringTokens s.chars)]))))),
      ([], [value .std_int (intsTokens (a.v.map fun c => if c.ordered then 1 else 0))])]

/-- `operator<<` of an element. -/
def Elt.tokens : Elt → List Token
  | word n => [.word 8 n.toNat]
  | bool b => [.word 8 b.toNat]
  | interval s e sopen eopen =>
    [.word 8 s.toNat, .word 8 e.toNat, .word 4 sopen.toNat, .word 4 eopen.toNat]
  | period months days dur => [.word 4 months.toNat, .word 4 days.toNat, .word 8 dur.toNat]
  | string s => stringTokens s.chars

/-- The elements, column by column. -/
def VArray.eltItems (a : VArray) : List (List Token) := a.v.flatMap fun c => c.v.map Elt.tokens

/-- All before the elements. -/
def VArray.headItems (a : VArray) : List (List Token) :=
  value a.type.valType [.word 8 a.size] :: a.metaItems

/-- `operator<<` of an array that is a value. -/
def VArray.tokens (a : VArray) : List Token := (a.headItems ++ a.eltItems).flatten

/-! ## Where chunks begin -/

/-- Where a token ends that is written at an offset. -/
def Token.next (off : Nat) (t : Token) : Nat :=
  (if t.Breaks off then headerSize else off) + t.image.length

/-- The tokens go into the chunk that is filled to an offset. -/
def Whole : Nat → List Token → Prop
  | _, [] => True
  | off, t :: ts => ¬ t.Breaks off ∧ t.Fits off ∧ Whole (off + t.image.length) ts

/-- Where an item begins. -/
def beginOf (off : Nat) : List Token → Nat
  | [] => off
  | t :: _ => if t.Breaks off then headerSize else off

/-- Each of the items goes into one chunk. -/
def EachWhole : Nat → List (List Token) → Prop
  | _, [] => True
  | off, u :: us =>
    Whole (beginOf off u) u ∧ EachWhole (beginOf off u + (u.flatMap Token.image).length) us

/-- Where the items end. -/
def endOf : Nat → List (List Token) → Nat
  | off, [] => off
  | off, u :: us => endOf (beginOf off u + (u.flatMap Token.image).length) us

instance decidableWhole : (off : Nat) → (ts : List Token) → Decidable (Whole off ts)
  | _, [] => inferInstanceAs (Decidable True)
  | off, t :: ts =>
    have := decidableWhole (off + t.image.length) ts
    inferInstanceAs (Decidable (_ ∧ _ ∧ _))

instance decidableEachWhole : (off : Nat) → (us : List (List Token)) → Decidable (EachWhole off us)
  | _, [] => inferInstanceAs (Decidable True)
  | off, u :: us =>
    have := decidableEachWhole (beginOf off u + (u.flatMap Token.image).length) us
    inferInstanceAs (Decidable (_ ∧ _))

end Ztsdb.Net
