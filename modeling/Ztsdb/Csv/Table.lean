import Mathlib
import Ztsdb.Csv.ReadToken
import Ztsdb.Tz.TimeText

/-!
# Tables

`writecsv_array` copies the text of every cell into a buffer, with a separator or the end of
the line behind it, and writes the buffer out when the next cell might not fit.
`readcsv_array` takes the tokens of the file row by row; the first row is the names of the
columns, or the first elements.

Arrays are matrices of what they hold. A write puts out all it is given. The last byte of a
string that is copied is taken to be zero.
-/

namespace Ztsdb.Csv

open Ztsdb.Lib Ztsdb.Lib.Decimal Ztsdb.Arr Ztsdb.Tz

/-- `BSZ` and `BUFSZ`. -/
def BUFSZ : Nat := 64000

/-- `ToChar` and `FromChar` of a type. What is read is given with the rest of the buffer
behind it, its size, and how many characters were processed. -/
structure Codec (T : Type) where
  toChar : T → Outcome Exn Unit (List UInt8)
  CMAX : Nat
  fromChar : List UInt8 → Nat → Outcome Exn Unit (T × Nat)

/-! ## Booleans -/

/-- `isspace`. -/
def isSpace (c : UInt8) : Bool := decide (9 ≤ c ∧ c ≤ 13 ∨ c = 32)

/-- `strtol(buf, &endptr, 10)`: whether the number is not zero, and how many characters were
taken; it may not come to the end of the buffer. -/
def strtol (buf : List UInt8) : Option (Bool × Nat) :=
  let front := (buf.takeWhile isSpace).length
  let s := buf.drop front
  let sign := if s.head? = some 43 ∨ s.head? = some 45 then 1 else 0
  let digits := (s.drop sign).takeWhile isDigit
  if (s.drop sign).length ≤ digits.length then none
  else some (digits.any (· ≠ 48), if digits = [] then 0 else front + sign + digits.length)

def boolCodec : Codec Bool where
  toChar t := .ok (if t then [49] else [48]) ()
  CMAX := 7
  fromChar buf _ :=
    match strtol buf with
    | none => .fault
    | some r => .ok r ()

/-! ## Times and strings -/

/-- `UTC`. -/
def utcName : List UInt8 := [85, 84, 67]

def dtimeCodec (tzones : List UInt8 → Except Exn Zone) : Codec dtime where
  toChar t :=
    match tzones utcName with
    | .error e => .throw e ()
    | .ok tz =>
      match to_string t tz utcName with
      | none => .fault
      | some s => if 128 < s.length then .throw (.outOfRange "date string too long!") () else .ok s ()
  CMAX := 128
  fromChar buf sz :=
    (dtime_from_string tzones (buf.take sz) defaultFormat []).bind fun t _ => .ok (t, sz) ()

def zstringCodec : Codec ZString where
  toChar t := .ok (t.chars.take (STRING_SIZE - 1)) ()
  CMAX := STRING_SIZE
  fromChar buf sz := .ok (ZString.ofString (buf.take sz), sz) ()

/-! ## Writing -/

/-- An array of two dimensions: its columns, and their names if they have any. -/
structure Matrix (T : Type) where
  nrows : Nat
  cols : List (List T)
  names : List ZString
  length_col : ∀ c ∈ cols, c.length = nrows
  names_or : names = [] ∨ names.length = cols.length

namespace Matrix

variable {T : Type} (a : Matrix T)

def hasNames : Bool := !a.names.isEmpty

/-- The elements of row `i`. -/
def row (i : Nat) : List T := a.cols.filterMap (·[i]?)

def rows : List (List T) := (List.range a.nrows).map a.row

end Matrix

/-- What is in the buffer and what has been written. -/
structure Writer where
  buf : List UInt8
  file : List UInt8

namespace Writer

def flush (w : Writer) : Writer := ⟨[], w.file ++ w.buf⟩

/-- Room for `k` more characters. -/
def reserve (k : Nat) (w : Writer) : Writer := if BUFSZ - w.buf.length < k then w.flush else w

/-- A text and what ends it. -/
def put (text : List UInt8) (last : UInt8) (w : Writer) : Outcome Exn Writer Unit :=
  if w.buf.length + text.length + 1 ≤ BUFSZ then
    .ok () { w with buf := w.buf ++ (text ++ [last]) }
  else .fault

/-- What ends a text that `rest` come behind in its row. -/
def ender {α : Type} (sep : UInt8) (rest : List α) : UInt8 := if rest.isEmpty then newline else sep

def putNames (sep : UInt8) : List ZString → Writer → Outcome Exn Writer Unit
  | [], w => .ok () w
  | s :: names, w =>
    ((w.reserve STRING_SIZE).put s.chars (ender sep names)).bind fun _ w => putNames sep names w

variable {T : Type} (codec : Codec T)

def putRow (sep : UInt8) : List T → Writer → Outcome Exn Writer Unit
  | [], w => .ok () w
  | x :: xs, w =>
    let w := w.reserve codec.CMAX
    match codec.toChar x with
    | .throw e _ => .throw e w
    | .fault => .fault
    | .ok text _ => (w.put text (ender sep xs)).bind fun _ w => putRow sep xs w

def putRows (sep : UInt8) : List (List T) → Writer → Outcome Exn Writer Unit
  | [], w => .ok () w
  | row :: rows, w => (putRow codec sep row w).bind fun _ w => putRows sep rows w

end Writer

/-- `writecsv_array`, with the file. Columns without names get empty ones in a header. -/
def writecsv_array {T : Type} (codec : Codec T) (a : Matrix T) (header : Bool) (sep : UInt8) :
    Outcome Exn Unit (List UInt8) :=
  let names := if a.names = [] then a.cols.map fun _ => ZString.empty else a.names
  let written := (if header then Writer.putNames sep names ⟨[], []⟩ else .ok () ⟨[], []⟩).bind
    fun _ w => Writer.putRows codec sep a.rows w
  match written with
  | .ok _ w => .ok w.flush.file ()
  | .throw e _ => .throw e ()
  | .fault => .fault

/-! ## Reading -/

/-- What an exception says. -/
def what : Exn → String
  | .invalidArgument what => what
  | .outOfRange what => what
  | .rangeError what => what
  | .logicError what => what
  | .systemError what => what
  | .lengthError what => what
  | .badAlloc => "std::bad_alloc"

/-- Characters as they stand. -/
def shown (cs : List UInt8) : String := String.ofList (cs.map fun c => Char.ofNat c.toNat)

/-- The exception is thrown again with the row. -/
def onRow {α : Type} (row : Nat) (o : Outcome Exn Unit α) : Outcome Exn Unit α :=
  o.tryCatch fun e _ => .throw (.outOfRange (what e ++ " on row " ++ toString (row + 1))) ()

/-- A call of `readToken`, and what is done with the token when there is one. -/
def withToken {α : Type} (sep : UInt8) (r : Reader) (stop : Int → Reader → α)
    (token : Int → Reader → Outcome Exn Unit α) : Outcome Exn Unit α :=
  match r.readToken sep with
  | .throw e _ => .throw e ()
  | .fault => .fault
  | .ok ret r => if ret < 0 then .ok (stop ret r) () else token ret r

/-- The names of the columns. -/
def readNames (sep : UInt8) : Nat → List ZString → Reader → Outcome Exn Unit (List ZString × Reader)
  | 0, _, _ => .fault
  | fuel + 1, names, r =>
    withToken sep r (fun _ r => (names, r)) fun ret r =>
      let names := names ++ [ZString.ofString r.token]
      if ret = charVal newline then .ok (names, r) () else readNames sep fuel names r

section Read

variable {T : Type} (codec : Codec T)

/-- The element that a token is parsed to. -/
def parse (suffix : String) (r : Reader) : Outcome Exn Unit T :=
  (codec.fromChar (r.buf.drop r.tb) (r.te - r.tb)).bind fun (d, processed_chars) _ =>
    if processed_chars ≠ r.te - r.tb then
      .throw (.outOfRange ("can't parse '" ++ shown r.token ++ suffix)) ()
    else .ok d ()

/-- The elements of the first row. -/
def readFirst (sep : UInt8) : Nat → List T → Reader → Outcome Exn Unit (List T × Reader)
  | 0, _, _ => .fault
  | fuel + 1, row, r =>
    withToken sep r (fun _ r => (row, r)) fun ret r =>
      (parse codec "" r).bind fun d _ =>
        let row := row ++ [d]
        if ret = charVal newline then .ok (row, r) () else readFirst sep fuel row r

/-- The elements of a row from column `j` on, `k` of them, and the last value of `readToken`. -/
def readRow (sep : UInt8) : Nat → Nat → Int → Reader → Outcome Exn Unit (List T × Int × Reader)
  | 0, _, last, r => .ok ([], last, r) ()
  | k + 1, j, _, r =>
    withToken sep r (fun ret r => ([], ret, r)) fun ret r =>
      (parse codec ("', col " ++ toString (j + 1)) r).bind fun d _ =>
        (readRow sep k (j + 1) ret r).bind fun (row, last, r) _ => .ok (d :: row, last, r) ()

/-- The elements behind those of the columns. -/
def pushRow : List (List T) → List T → List (List T)
  | c :: cols, d :: row => (c ++ [d]) :: pushRow cols row
  | cols, _ => cols

/-- The rows, and how many there are behind `row`. -/
def readRows (sep : UInt8) : Nat → Nat → List (List T) → Reader →
    Outcome Exn Unit (List (List T) × Nat)
  | 0, _, _, _ => .fault
  | fuel + 1, row, cols, r =>
    (onRow row (readRow codec sep cols.length 0 (-1) r)).bind fun (elts, sep_read, r) _ =>
      let cols := pushRow cols elts
      if sep_read < 0 then .ok (cols, row) ()
      else if 0 < sep_read ∧ sep_read ≠ charVal newline then
        onRow row (.throw (.outOfRange "incorrect number of elements") ())
      else readRows sep fuel (row + 1) cols r

/-- What an array has been read as. -/
structure Table (T : Type) where
  nrows : Nat
  cols : List (List T)
  names : List ZString

/-- `resize(0, sz)`: of an array without columns too. -/
def resized (init : T) (sz : Nat) (cols : List (List T)) (names : List ZString) : Table T where
  nrows := sz
  cols := (if cols = [] then [[]] else cols).map fun c =>
    c.take sz ++ List.replicate (sz - c.length) init
  names := names

/-- `readcsv_array`, from a file at its beginning. A file has fewer tokens than it has bytes and
one more. -/
def readcsv_array (init : T) (header : Bool) (sep : UInt8) (r : Reader) :
    Outcome Exn Unit (Table T) :=
  let fuel := r.pieces.flatten.length + 2
  if header then
    (onRow 0 (readNames sep fuel [] r)).bind fun (names, r) _ =>
      (readRows codec sep fuel 1 (names.map fun _ => []) r).bind fun (cols, row) _ =>
        .ok (resized init (row - 1) cols names) ()
  else
    (onRow 0 (readFirst codec sep fuel [] r)).bind fun (elts, r) _ =>
      (readRows codec sep fuel 1 (elts.map fun d => [d]) r).bind fun (cols, row) _ =>
        .ok (resized init row cols []) ()

end Read

end Ztsdb.Csv
