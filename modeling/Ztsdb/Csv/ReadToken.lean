import Mathlib
import Ztsdb.Arr.Machine

/-!
# Reading tokens

`readToken` walks through a buffer that it fills again whenever it comes to its end: what it
still needs is moved to the front, and the next read goes behind it. Between two calls the
reader stands on the separator of the last token, or on its closing quote.

What `read` returns, one piece after the other, is part of the reader; a read gives no more
than was asked for. Bytes of the buffer that were not read are whatever they were.
-/

namespace Ztsdb.Csv

open Ztsdb.Lib Ztsdb.Arr

def quote : UInt8 := 34

def newline : UInt8 := 10

/-- A `char` as the `int` it is returned as. -/
def charVal (c : UInt8) : Int := if c.toNat < 128 then c.toNat else c.toNat - 256

/-- The variables of the reader: the buffer, its length, the token's begin and end in it,
whether `te` is still null, the quoted flag; and what reads are going to return. -/
structure Reader where
  buf : List UInt8
  len : Int
  tb : Nat
  te : Nat
  fresh : Bool
  quoted : Bool
  pieces : List (List UInt8)
deriving DecidableEq, Repr

namespace Reader

/-- The buffer when the bytes from `tb` to `te` are copied to its front. -/
def moved (r : Reader) : List UInt8 :=
  slice r.tb (r.te - r.tb) r.buf ++ r.buf.drop (r.te - r.tb)

/-- `readMore`, with the new length in `len`. -/
def readMore (r : Reader) : Outcome Exn Reader Unit :=
  let offset := r.te - r.tb
  if r.buf.length ≤ offset then .throw (.rangeError "token larger than buffer size") r
  else
    let buf := r.moved
    let r := { r with buf, tb := 0, te := offset, fresh := false }
    match r.pieces with
    | [] => .ok () { r with len := if offset = 0 then -1 else 0 }
    | p :: ps =>
      if p ≠ [] ∧ offset + p.length ≤ buf.length then
        .ok () { r with
          buf := buf.take offset ++ (p ++ buf.drop (offset + p.length))
          len := (offset + p.length : Nat)
          pieces := ps }
      else .fault

/-- Whether more was read. -/
def refill (r : Reader) : Outcome Exn Reader Bool :=
  r.readMore.bind fun _ r => .ok (decide (0 < r.len)) r

/-- `++te`, and a refill at the end of the buffer; whether there is a byte at `te`. -/
def advance (r : Reader) : Outcome Exn Reader Bool :=
  let r := { r with te := r.te + 1 }
  if r.len ≤ r.te then r.refill else .ok true r

/-- At a closing quote. -/
def close (sep : UInt8) (r : Reader) : Outcome Exn Reader Int :=
  (if r.len ≤ r.te + 1 then r.refill else .ok true r).bind fun more r =>
    if more then
      match r.buf[r.te + 1]? with
      | none => .fault
      | some d =>
        if d = sep ∨ d = newline then .ok (charVal d) r
        else .throw (.outOfRange "quote does not terminate token") r
    else .ok r.len r

/-- The loop over the bytes of a token, which goes through fewer than `fuel` of them. -/
def scan (sep : UInt8) : Nat → Reader → Outcome Exn Reader Int
  | 0, _ => .fault
  | fuel + 1, r =>
    match r.buf[r.te]? with
    | none => .fault
    | some c =>
      if r.quoted = true ∧ c = quote then r.close sep
      else if r.quoted = false ∧ (c = sep ∨ c = newline) then .ok (charVal c) r
      else r.advance.bind fun more r => if more then scan sep fuel r else .ok r.len r

/-- The bytes from `te` on that are in the buffer or still to be read. -/
def remaining (r : Reader) : Nat := (r.len - r.te).toNat + r.pieces.flatten.length

/-- To the first byte behind the last token. -/
def skip (r : Reader) : Outcome Exn Reader Bool :=
  if r.fresh then r.refill
  else if r.quoted then r.advance.bind fun more r => if more then r.advance else .ok false r
  else r.advance

def readToken (sep : UInt8) (r : Reader) : Outcome Exn Reader Int :=
  r.skip.bind fun more r =>
    if more then
      match r.buf[r.te]? with
      | none => .fault
      | some c =>
        let r := { r with quoted := c = quote }
        (if r.quoted then r.advance else .ok true r).bind fun more r =>
          if more then
            let r := { r with tb := r.te }
            r.scan sep (r.remaining + 1)
          else .ok (-1) r
    else .ok (-1) r

/-- The bytes from `tb` to `te`. -/
def token (r : Reader) : List UInt8 := slice r.tb (r.te - r.tb) r.buf

end Reader

/-- What a call of `readToken` gives: a token with its separator (zero at the end of the
file), a negative value, or an error. -/
inductive Result where
  | token (text : List UInt8) (sep : Int)
  | stop (ret : Int)
  | error (e : Exn)
deriving DecidableEq, Repr

/-- The results of `n` calls, up to the first that is not a token; `none` where a read would
have to return more than was asked for. -/
def calls (sep : UInt8) : Nat → Reader → Option (List Result)
  | 0, _ => some []
  | n + 1, r =>
    match r.readToken sep with
    | .ok ret r =>
      if ret < 0 then some [.stop ret] else (calls sep n r).map (Result.token r.token ret :: ·)
    | .throw e _ => some [.error e]
    | .fault => none

/-- The reader at first, with a buffer. -/
def start (buf : List UInt8) (pieces : List (List UInt8)) : Reader :=
  ⟨buf, 0, 0, 0, true, false, pieces⟩

/-- The whole file in one read. -/
def whole (file : List UInt8) : List (List UInt8) := if file = [] then [] else [file]

/-! ## Where a piece ends -/

/-- Where in the tokens a byte of the file is followed by the next: in front of a token, behind
an opening quote, in a quoted token, in one that is not, behind a closing quote, or behind a
byte that should have been a separator. -/
inductive Place where
  | front
  | opened
  | inside
  | plain
  | closed
  | broken
deriving DecidableEq, Repr

/-- The place, and how many bytes of the buffer are held there: those of the token, and in
front of one those of the last token with its quote and separator. -/
structure Mark where
  place : Place
  held : Nat
deriving DecidableEq, Repr

def Mark.step (sep : UInt8) (m : Mark) (c : UInt8) : Mark :=
  match m.place with
  | .front =>
    if c = quote then ⟨.opened, m.held + 1⟩
    else if c = sep ∨ c = newline then ⟨.front, 1⟩
    else ⟨.plain, 1⟩
  | .opened => if c = quote then ⟨.closed, 1⟩ else ⟨.inside, 1⟩
  | .inside => if c = quote then ⟨.closed, m.held + 1⟩ else ⟨.inside, m.held + 1⟩
  | .plain =>
    if c = sep ∨ c = newline then ⟨.front, m.held + 1⟩ else ⟨.plain, m.held + 1⟩
  | .closed =>
    if c = sep ∨ c = newline then ⟨.front, m.held + 1⟩ else ⟨.broken, 0⟩
  | .broken => m

/-- The mark behind some bytes of a file. -/
def mark (sep : UInt8) (bs : List UInt8) : Mark := bs.foldl (Mark.step sep) ⟨.front, 0⟩

/-- What has to be held for a refill at a mark; at the end of the file a token is passed by
one more byte. -/
def Mark.need (last : Bool) (m : Mark) : Nat :=
  if last ∧ (m.place = .plain ∨ m.place = .inside) then m.held + 1 else m.held

/-- Reads return no more than the buffer has room for behind what is held, no piece but the
last ends right behind a closing quote, and at the end of every piece less is held than the
buffer takes. -/
structure Clean (sep : UInt8) (bufsz : Nat) (pieces : List (List UInt8)) : Prop where
  pos : 0 < bufsz
  fits : ∀ done p rest, pieces = done ++ p :: rest →
    p ≠ [] ∧ (mark sep done.flatten).held + p.length ≤ bufsz
  closed : ∀ done rest, pieces = done ++ rest → rest ≠ [] →
    (mark sep done.flatten).place ≠ .closed
  room : ∀ done rest, pieces = done ++ rest → done ≠ [] →
    (mark sep done.flatten).need (decide (rest = [])) < bufsz

end Ztsdb.Csv
