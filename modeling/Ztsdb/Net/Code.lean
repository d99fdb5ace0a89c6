import Mathlib
import Ztsdb.Lang.Ast
import Ztsdb.Net.Encode

/-!
# Expressions in a stream

`writeCode` puts a tree into a stream, `codeLength` says in advance how many bytes that
takes, and `readCode` builds the tree again. The three go over the kinds of nodes on their
own.

They do not agree with the trees there are. A function without formal arguments has no
list of them, and both `writeCode` and `codeLength` look into the list; an ellipsis is none
of the cases of any of the three; `codeLength` adds up the elements of a list in an
`unsigned`; and a string constant of 127 characters or more has no terminating zero, so its
size is that of whatever follows it in memory.
-/

namespace Ztsdb.Net

open Ztsdb.Lib Ztsdb.Lang
open AppendMessage (getAlignedLength)

/-- The kinds of nodes, in the order of their numbers. -/
inductive Etype where
  | etempty | etnull | etnext | etbreak | etellipsis | etbool | etdouble | etdtime
  | etinterval | etsymbol | etstring | etboundvar | etescape | etinvoke | etunop | etbinop
  | etexprlist | etwhile | etifelse | etfor | etleftassign | etspecialassign | etrequest
  | ettaggedexpr | etfunction | etfuncall | etcode | etarg
  deriving DecidableEq

namespace Etype

def all : List Etype :=
  [etempty, etnull, etnext, etbreak, etellipsis, etbool, etdouble, etdtime, etinterval,
    etsymbol, etstring, etboundvar, etescape, etinvoke, etunop, etbinop, etexprlist, etwhile,
    etifelse, etfor, etleftassign, etspecialassign, etrequest, ettaggedexpr, etfunction,
    etfuncall, etcode, etarg]

def num (t : Etype) : Nat := all.idxOf t

def ofNum (n : Nat) : Option Etype := all[n]?

theorem ofNum_num (t : Etype) : ofNum t.num = some t := by cases t <;> rfl

theorem num_lt (t : Etype) : t.num < 28 := by cases t <;> decide

end Etype

/-! ## Texts -/

/-- The characters of a `std::string`, one byte each. -/
def chars (s : String) : List UInt8 := s.toList.map fun c => UInt8.ofNat c.toNat

def text (bs : List UInt8) : String := String.ofList (bs.map fun b => Char.ofNat b.toNat)

/-- A text of bytes. -/
def isBytes (s : String) : Bool := s.toList.all fun c => decide (c.toNat < 256)

/-- The size of the array of a `zstring`. -/
def STRING_SIZE : Nat := 128

/-- The characters of a `zstring` made of a text, up to the first zero. A text that takes
all the array but its last byte leaves that byte unset. -/
def zchars (s : String) : Option (List UInt8) :=
  let bs := (chars s).takeWhile (· ≠ 0)
  if bs.length < STRING_SIZE - 1 then some bs else none

/-- The text of a `zstring` made of a range of characters. -/
def zread (bs : List UInt8) : List UInt8 := (bs.take (STRING_SIZE - 1)).takeWhile (· ≠ 0)

theorem text_chars {s : String} (h : isBytes s = true) : text (chars s) = s := by
  have hmap : (chars s).map (fun b => Char.ofNat b.toNat) = s.toList := by
    rw [chars, List.map_map]
    refine (List.map_congr_left fun c hc => ?_).trans (List.map_id _)
    have hlt : c.toNat < 256 := by simpa using List.all_eq_true.mp h c hc
    show Char.ofNat (UInt8.ofNat c.toNat).toNat = c
    rw [UInt8.toNat_ofNat_of_lt' hlt, Char.ofNat_toNat]
  rw [text, hmap, String.ofList_toList]

theorem zchars_eq {s : String} {bs : List UInt8} (h : zchars s = some bs)
    (h0 : ∀ b ∈ chars s, b ≠ 0) : bs = chars s ∧ (chars s).length < STRING_SIZE - 1 := by
  have htake : (chars s).takeWhile (· ≠ 0) = chars s :=
    List.takeWhile_eq_self_iff.mpr fun b hb => by simpa using h0 b hb
  simp only [zchars, htake] at h
  split at h
  · next hlt => exact ⟨(Option.some.inj h).symm, hlt⟩
  · cases h

theorem zread_eq {bs : List UInt8} (h0 : ∀ b ∈ bs, b ≠ 0) (hlt : bs.length < STRING_SIZE - 1) :
    zread bs = bs := by
  rw [zread, List.take_of_length_le (by omega)]
  exact List.takeWhile_eq_self_iff.mpr fun b hb => by simpa using h0 b hb

open E

/-! ## The three functions -/

def codeLengthSymbol (s : String) : Nat := 8 + 8 + getAlignedLength (chars s).length + 8

mutual

/-- There is no length where the source throws or has no meaning. -/
def codeLength : E → Option Nat
  | etnull => some 8
  | etnext => some 8
  | etbreak => some 8
  | etellipsis => none
  | literal (.bool _) => some (8 + 8)
  | literal (.double _) => some (8 + 8)
  | literal (.dtime _) => some (8 + 8)
  | literal (.interval _ _ _ _) => some (8 + 2 * 8 + 2 * 4)
  | literal (.string s) => (zchars s).map fun t => 8 + 8 + getAlignedLength t.length
  | etsymbol s _ => some (codeLengthSymbol s)
  | etboundvar s => some (8 + 8 + getAlignedLength (chars s).length)
  | etescape _ => none
  | etunop _ e => (codeLength e).map fun n => 8 + 8 + n
  | etbinop _ left right _ =>
    (codeLength left).bind fun n => (codeLength right).map fun m => 8 + 8 + n + m
  | etexprlist el => codeLengths 16 el
  | etwhile e1 e2 => (codeLength e1).bind fun n => (codeLength e2).map fun m => 8 + n + m
  | etifelse e1 e2 e3 =>
    (codeLength e1).bind fun n => (codeLength e2).bind fun m =>
      (codeLength e3).map fun k => 8 + n + m + k
  | etfor forloop => (codeLength forloop).map fun n => 8 + n
  | etleftassign e1 e2 => (codeLength e1).bind fun n => (codeLength e2).map fun m => 8 + n + m
  | etspecialassign e1 e2 => (codeLength e1).bind fun n => (codeLength e2).map fun m => 8 + n + m
  | etrequest e1 e2 => (codeLength e1).bind fun n => (codeLength e2).map fun m => 8 + n + m
  | ettaggedexpr symb _ e => (codeLength e).map fun n => 8 + codeLengthSymbol symb + n
  | etfunction [] _ => none
  | etfunction (f :: fs) body =>
    (codeLength f).bind fun k => (codeLengths ((16 + k) % 2 ^ 32) fs).bind fun n =>
      (codeLength body).map fun m => 8 + n + m
  | etfuncall e el => (codeLength e).bind fun n => (codeLengths 16 el).map fun m => 8 + n + m
  | etarg _ e => (codeLength e).map fun n => 8 + 8 + n

/-- The loop over a list, which adds to an `unsigned`. -/
def codeLengths : Nat → List E → Option Nat
  | len, [] => some len
  | len, e :: el => (codeLength e).bind fun n => codeLengths ((len + n) % 2 ^ 32) el

end

def writeSymbol (s : String) (ref : Bool) (ec : Encode) : Option Encode :=
  ((ec.word Etype.etsymbol.num).string (chars s)).map fun ec => ec.word ref.toNat

mutual

def writeCode : E → Encode → Option Encode
  | etnull, ec => some (ec.word Etype.etnull.num)
  | etnext, ec => some (ec.word Etype.etnext.num)
  | etbreak, ec => some (ec.word Etype.etbreak.num)
  | etellipsis, _ => none
  | literal (.bool b), ec => some ((ec.word Etype.etbool.num).word b.toNat)
  | literal (.double d), ec => some ((ec.word Etype.etdouble.num).word d.toNat)
  | literal (.dtime t), ec => some ((ec.word Etype.etdtime.num).word t.toUInt64.toNat)
  | literal (.interval s e sopen eopen), ec =>
    let ec := ((ec.word Etype.etinterval.num).word s.toUInt64.toNat).word e.toUInt64.toNat
    some ((ec.put 4 sopen.toNat).put 4 eopen.toNat)
  | literal (.string s), ec => (zchars s).bind fun t => (ec.word Etype.etstring.num).string t
  | etsymbol s ref, ec => writeSymbol s ref ec
  | etboundvar s, ec => (ec.word Etype.etboundvar.num).string (chars s)
  | etescape _, _ => none
  | etunop op e, ec => writeCode e ((ec.word Etype.etunop.num).word op)
  | etbinop op left right _, ec =>
    (writeCode left ((ec.word Etype.etbinop.num).word op)).bind (writeCode right)
  | etexprlist el, ec => writeCodes el ((ec.word Etype.etexprlist.num).word el.length)
  | etwhile e1 e2, ec => (writeCode e1 (ec.word Etype.etwhile.num)).bind (writeCode e2)
  | etifelse e1 e2 e3, ec =>
    ((writeCode e1 (ec.word Etype.etifelse.num)).bind (writeCode e2)).bind (writeCode e3)
  | etfor forloop, ec => writeCode forloop (ec.word Etype.etfor.num)
  | etleftassign e1 e2, ec => (writeCode e1 (ec.word Etype.etleftassign.num)).bind (writeCode e2)
  | etspecialassign e1 e2, ec =>
    (writeCode e1 (ec.word Etype.etspecialassign.num)).bind (writeCode e2)
  | etrequest e1 e2, ec => (writeCode e1 (ec.word Etype.etrequest.num)).bind (writeCode e2)
  | ettaggedexpr symb ref e, ec =>
    (writeSymbol symb ref (ec.word Etype.ettaggedexpr.num)).bind (writeCode e)
  | etfunction [] _, _ => none
  | etfunction (f :: fs) body, ec =>
    let ec := ((ec.word Etype.etfunction.num).word Etype.etexprlist.num).word (f :: fs).length
    ((writeCode f ec).bind (writeCodes fs)).bind (writeCode body)
  | etfuncall e el, ec =>
    (writeCode e (ec.word Etype.etfuncall.num)).bind fun ec =>
      writeCodes el ((ec.word Etype.etexprlist.num).word el.length)
  | etarg ref e, ec => writeCode e ((ec.word Etype.etarg.num).word ref.toNat)

def writeCodes : List E → Encode → Option Encode
  | [], ec => some ec
  | e :: el, ec => (writeCode e ec).bind (writeCodes el)

end

/-- The length and the characters of a string; the length is read as an `unsigned`. -/
def readString (buf : List UInt8) (off : Nat) : Option (List UInt8 × Nat) :=
  (readWord 8 buf off).bind fun (n, off) =>
    let strlen := n % 2 ^ 32
    if off + strlen ≤ buf.length then some (slice off strlen buf, off) else none

/-- The elements of a list, one after the other. -/
def readEach (read : Nat → Option (E × Nat)) : Nat → Nat → Option (List E × Nat)
  | 0, off => some ([], off)
  | n + 1, off => (read off).bind fun (e, off) =>
      (readEach read n off).map fun (el, off) => (e :: el, off)

/-- `readCode`, with a bound on its depth. Arguments of a constructor are read from left
to right. -/
def readCode : Nat → List UInt8 → Nat → Option (E × Nat)
  | 0, _, _ => none
  | fuel + 1, buf, off =>
    (readWord 8 buf off).bind fun (n, off) =>
    match Etype.ofNum n with
    | some .etnull => some (etnull, off)
    | some .etbreak => some (etbreak, off)
    | some .etnext => some (etnext, off)
    | some .etbool =>
      (readWord 8 buf off).map fun (b, off) => (literal (.bool (decide (b ≠ 0))), off)
    | some .etdouble =>
      (readWord 8 buf off).map fun (d, off) => (literal (.double (UInt64.ofNat d)), off)
    | some .etdtime =>
      (readWord 8 buf off).map fun (d, off) => (literal (.dtime (UInt64.ofNat d).toInt64), off)
    | some .etinterval =>
      (readWord 8 buf off).bind fun (d1, off) => (readWord 8 buf off).bind fun (d2, off) =>
      (readWord 4 buf off).bind fun (s1, off) => (readWord 4 buf off).bind fun (s2, off) =>
        let s := (UInt64.ofNat d1).toInt64
        let e := (UInt64.ofNat d2).toInt64
        if e < s then none
        else some (literal (.interval s e (UInt32.ofNat s1) (UInt32.ofNat s2)), off)
    | some .etsymbol =>
      (readString buf off).bind fun (t, off) =>
      (readWord 8 buf (off + getAlignedLength t.length)).map fun (b, off) =>
        (etsymbol (text t) (decide (b ≠ 0)), off)
    | some .etstring =>
      (readString buf off).map fun (t, off) =>
        (literal (.string (text (zread t))), off + getAlignedLength (zread t).length)
    | some .etboundvar =>
      (readString buf off).map fun (t, off) =>
        (etboundvar (text t), off + getAlignedLength t.length)
    | some .etunop =>
      (readWord 8 buf off).bind fun (op, off) =>
      (readCode fuel buf off).map fun (e, off) => (etunop (op % 2 ^ 32) e, off)
    | some .etbinop =>
      (readWord 8 buf off).bind fun (op, off) =>
      (readCode fuel buf off).bind fun (left, off) =>
      (readCode fuel buf off).map fun (right, off) =>
        (etbinop (op % 2 ^ 32) left right etnull, off)
    | some .etexprlist =>
      (readWord 8 buf off).bind fun (n, off) =>
      (readEach (readCode fuel buf) (n % 2 ^ 32) off).map fun (el, off) => (etexprlist el, off)
    | some .etwhile =>
      (readCode fuel buf off).bind fun (e1, off) =>
      (readCode fuel buf off).map fun (e2, off) => (etwhile e1 e2, off)
    | some .etifelse =>
      (readCode fuel buf off).bind fun (e1, off) =>
      (readCode fuel buf off).bind fun (e2, off) =>
      (readCode fuel buf off).map fun (e3, off) => (etifelse e1 e2 e3, off)
    | some .etfor => (readCode fuel buf off).map fun (e, off) => (etfor e, off)
    | some .etleftassign =>
      (readCode fuel buf off).bind fun (e1, off) =>
      (readCode fuel buf off).map fun (e2, off) => (etleftassign e1 e2, off)
    | some .etspecialassign =>
      (readCode fuel buf off).bind fun (e1, off) =>
      (readCode fuel buf off).map fun (e2, off) => (etspecialassign e1 e2, off)
    | some .etrequest =>
      (readCode fuel buf off).bind fun (e1, off) =>
      (readCode fuel buf off).map fun (e2, off) => (etrequest e1 e2, off)
    | some .ettaggedexpr =>
      (readCode fuel buf off).bind fun (sym, off) =>
        match sym with
        | etsymbol s ref =>
          (readCode fuel buf off).map fun (e, off) => (ettaggedexpr s ref e, off)
        | _ => none
    | some .etarg =>
      (readWord 8 buf off).bind fun (b, off) =>
      (readCode fuel buf off).map fun (e, off) => (etarg (decide (b ≠ 0)) e, off)
    | some .etfunction =>
      (readCode fuel buf off).bind fun (el, off) =>
        match el with
        | etexprlist el =>
          (readCode fuel buf off).map fun (body, off) => (etfunction el body, off)
        | _ => none
    | some .etfuncall =>
      (readCode fuel buf off).bind fun (e, off) => (readCode fuel buf off).bind fun (el, off) =>
        match el with
        | etexprlist el => some (etfuncall e el, off)
        | _ => none
    | _ => none

/-! ## What is sent of a tree -/

def piecesSymbol (s : String) (ref : Bool) : List Piece :=
  [.word 8 Etype.etsymbol.num, .string (chars s), .word 8 ref.toNat]

mutual

/-- The pieces that stand for a tree. -/
def pieces : E → List Piece
  | etnull => [.word 8 Etype.etnull.num]
  | etnext => [.word 8 Etype.etnext.num]
  | etbreak => [.word 8 Etype.etbreak.num]
  | etellipsis => []
  | literal (.bool b) => [.word 8 Etype.etbool.num, .word 8 b.toNat]
  | literal (.double d) => [.word 8 Etype.etdouble.num, .word 8 d.toNat]
  | literal (.dtime t) => [.word 8 Etype.etdtime.num, .word 8 t.toUInt64.toNat]
  | literal (.interval s e sopen eopen) =>
    [.word 8 Etype.etinterval.num, .word 8 s.toUInt64.toNat, .word 8 e.toUInt64.toNat,
      .word 4 sopen.toNat, .word 4 eopen.toNat]
  | literal (.string s) => [.word 8 Etype.etstring.num, .string (chars s)]
  | etsymbol s ref => piecesSymbol s ref
  | etboundvar s => [.word 8 Etype.etboundvar.num, .string (chars s)]
  | etescape _ => []
  | etunop op e => [.word 8 Etype.etunop.num, .word 8 op] ++ pieces e
  | etbinop op left right _ =>
    [.word 8 Etype.etbinop.num, .word 8 op] ++ (pieces left ++ pieces right)
  | etexprlist el => [.word 8 Etype.etexprlist.num, .word 8 el.length] ++ piecesAll el
  | etwhile e1 e2 => [.word 8 Etype.etwhile.num] ++ (pieces e1 ++ pieces e2)
  | etifelse e1 e2 e3 => [.word 8 Etype.etifelse.num] ++ (pieces e1 ++ (pieces e2 ++ pieces e3))
  | etfor forloop => [.word 8 Etype.etfor.num] ++ pieces forloop
  | etleftassign e1 e2 => [.word 8 Etype.etleftassign.num] ++ (pieces e1 ++ pieces e2)
  | etspecialassign e1 e2 => [.word 8 Etype.etspecialassign.num] ++ (pieces e1 ++ pieces e2)
  | etrequest e1 e2 => [.word 8 Etype.etrequest.num] ++ (pieces e1 ++ pieces e2)
  | ettaggedexpr symb ref e =>
    [.word 8 Etype.ettaggedexpr.num] ++ (piecesSymbol symb ref ++ pieces e)
  | etfunction formlist body =>
    [.word 8 Etype.etfunction.num, .word 8 Etype.etexprlist.num, .word 8 formlist.length] ++
      (piecesAll formlist ++ pieces body)
  | etfuncall e el =>
    [.word 8 Etype.etfuncall.num] ++
      (pieces e ++ ([.word 8 Etype.etexprlist.num, .word 8 el.length] ++ piecesAll el))
  | etarg ref e => [.word 8 Etype.etarg.num, .word 8 ref.toNat] ++ pieces e

def piecesAll : List E → List Piece
  | [] => []
  | e :: el => pieces e ++ piecesAll el

end

mutual

/-- What a tree holds of the types of its data: texts are bytes, those of string constants
without a zero, an operator is an `unsigned`, and so is the count of a list; an interval
does not end before it starts, and a binary operator has no attribute. There is no escape
in it. -/
def built : E → Bool
  | etnull => true
  | etnext => true
  | etbreak => true
  | etellipsis => true
  | literal (.interval s e _ _) => decide (s ≤ e)
  | literal (.string s) => isBytes s && (chars s).all (· ≠ 0)
  | literal _ => true
  | etsymbol s _ => isBytes s
  | etboundvar s => isBytes s
  | etescape _ => false
  | etunop op e => decide (op < 2 ^ 32) && built e
  | etbinop op left right attrib =>
    decide (op < 2 ^ 32) && built left && built right && (attrib matches etnull)
  | etexprlist el => decide (el.length < 2 ^ 32) && builtAll el
  | etwhile e1 e2 => built e1 && built e2
  | etifelse e1 e2 e3 => built e1 && built e2 && built e3
  | etfor forloop => built forloop
  | etleftassign e1 e2 => built e1 && built e2
  | etspecialassign e1 e2 => built e1 && built e2
  | etrequest e1 e2 => built e1 && built e2
  | ettaggedexpr symb _ e => isBytes symb && built e
  | etfunction formlist body =>
    decide (formlist.length < 2 ^ 32) && builtAll formlist && built body
  | etfuncall e el => built e && decide (el.length < 2 ^ 32) && builtAll el
  | etarg _ e => built e

def builtAll : List E → Bool
  | [] => true
  | e :: el => built e && builtAll el

end

mutual

/-- No ellipsis, no function without formal arguments, and no string constant of more
than 126 characters. -/
def accepted : E → Bool
  | etnull => true
  | etnext => true
  | etbreak => true
  | etellipsis => false
  | literal (.string s) => decide ((chars s).length < STRING_SIZE - 1)
  | literal _ => true
  | etsymbol _ _ => true
  | etboundvar _ => true
  | etescape _ => false
  | etunop _ e => accepted e
  | etbinop _ left right _ => accepted left && accepted right
  | etexprlist el => acceptedAll el
  | etwhile e1 e2 => accepted e1 && accepted e2
  | etifelse e1 e2 e3 => accepted e1 && accepted e2 && accepted e3
  | etfor forloop => accepted forloop
  | etleftassign e1 e2 => accepted e1 && accepted e2
  | etspecialassign e1 e2 => accepted e1 && accepted e2
  | etrequest e1 e2 => accepted e1 && accepted e2
  | ettaggedexpr _ _ e => accepted e
  | etfunction formlist body =>
    !formlist.isEmpty && acceptedAll formlist && accepted body
  | etfuncall e el => accepted e && acceptedAll el
  | etarg _ e => accepted e

def acceptedAll : List E → Bool
  | [] => true
  | e :: el => accepted e && acceptedAll el

end

/-- The number of bytes that stand for a tree. -/
def codeSize (e : E) : Nat := (image (pieces e)).length

def codeSizes (el : List E) : Nat := (image (piecesAll el)).length

mutual

/-- The code of every list in a tree is counted by an `unsigned`. -/
def small : E → Bool
  | etunop _ e => small e
  | etbinop _ left right _ => small left && small right
  | etexprlist el => decide (16 + codeSizes el < 2 ^ 32) && smallAll el
  | etwhile e1 e2 => small e1 && small e2
  | etifelse e1 e2 e3 => small e1 && small e2 && small e3
  | etfor forloop => small forloop
  | etleftassign e1 e2 => small e1 && small e2
  | etspecialassign e1 e2 => small e1 && small e2
  | etrequest e1 e2 => small e1 && small e2
  | ettaggedexpr _ _ e => small e
  | etfunction formlist body =>
    decide (16 + codeSizes formlist < 2 ^ 32) && smallAll formlist && small body
  | etfuncall e el => small e && decide (16 + codeSizes el < 2 ^ 32) && smallAll el
  | etarg _ e => small e
  | _ => true

def smallAll : List E → Bool
  | [] => true
  | e :: el => small e && smallAll el

end

/-! ## The writer -/

theorem zchars_of_accepted {s : String} (hb : built (literal (.string s)) = true)
    (ha : accepted (literal (.string s)) = true) : zchars s = some (chars s) := by
  simp only [built, accepted, Bool.and_eq_true, List.all_eq_true, decide_eq_true_eq] at hb ha
  have htake : (chars s).takeWhile (· ≠ 0) = chars s :=
    List.takeWhile_eq_self_iff.mpr fun b hb' => by simpa using hb.2 b hb'
  simp only [zchars, htake, if_pos ha]

theorem writeSymbol_eq (s : String) (ref : Bool) :
    writeSymbol s ref = write (piecesSymbol s ref) := by
  funext ec
  show ((ec.word _).string (chars s)).map _ = ((ec.word _).string (chars s)).bind _
  cases (ec.word Etype.etsymbol.num).string (chars s) <;> rfl

theorem write_string (t : List UInt8) (ec : Encode) : write [.string t] ec = ec.string t := by
  show (ec.string t).bind some = ec.string t
  cases ec.string t <;> rfl

theorem write_words {k n : Nat} {ps : List Piece} {ec : Encode} :
    write (.word k n :: ps) ec = write ps (ec.put k n) := rfl

theorem write_bind (ps qs : List Piece) : write (ps ++ qs) = fun ec => (write ps ec).bind (write qs) :=
  funext fun ec => write_append ps qs ec

mutual

/-- A tree that is accepted is written as its pieces. -/
theorem writeCode_eq : ∀ {e : E}, built e = true → accepted e = true →
    writeCode e = write (pieces e)
  | etnull, _, _ => by funext ec; rw [writeCode, pieces]; rfl
  | etnext, _, _ => by funext ec; rw [writeCode, pieces]; rfl
  | etbreak, _, _ => by funext ec; rw [writeCode, pieces]; rfl
  | literal (.bool _), _, _ => by funext ec; rw [writeCode, pieces]; rfl
  | literal (.double _), _, _ => by funext ec; rw [writeCode, pieces]; rfl
  | literal (.dtime _), _, _ => by funext ec; rw [writeCode, pieces]; rfl
  | literal (.interval _ _ _ _), _, _ => by funext ec; rw [writeCode, pieces]; rfl
  | literal (.string s), hb, ha => by
      funext ec
      rw [writeCode, pieces, zchars_of_accepted hb ha, write_words, write_string]
      rfl
  | etsymbol s ref, _, _ => by
      funext ec
      rw [writeCode, pieces, writeSymbol_eq]
  | etboundvar s, _, _ => by
      funext ec
      rw [writeCode, pieces, write_words, write_string]
  | etunop op e, hb, ha => by
      simp only [built, accepted, Bool.and_eq_true] at hb ha
      funext ec
      rw [writeCode, pieces, writeCode_eq hb.2 ha]
      rfl
  | etbinop op left right attrib, hb, ha => by
      simp only [built, accepted, Bool.and_eq_true] at hb ha
      funext ec
      rw [writeCode, pieces, writeCode_eq hb.1.1.2 ha.1, writeCode_eq hb.1.2 ha.2, write_bind,
        write_bind]
      rfl
  | etexprlist el, hb, ha => by
      simp only [built, accepted, Bool.and_eq_true] at hb ha
      funext ec
      rw [writeCode, pieces, writeCodes_eq hb.2 ha]
      rfl
  | etwhile e1 e2, hb, ha => by
      simp only [built, accepted, Bool.and_eq_true] at hb ha
      funext ec
      rw [writeCode, pieces, writeCode_eq hb.1 ha.1, writeCode_eq hb.2 ha.2, write_bind, write_bind]
      rfl
  | etifelse e1 e2 e3, hb, ha => by
      simp only [built, accepted, Bool.and_eq_true] at hb ha
      funext ec
      rw [writeCode, pieces, writeCode_eq hb.1.1 ha.1.1, writeCode_eq hb.1.2 ha.1.2,
        writeCode_eq hb.2 ha.2, write_bind, write_bind, write_bind, Option.bind_assoc]
      rfl
  | etfor forloop, hb, ha => by
      simp only [built, accepted] at hb ha
      funext ec
      rw [writeCode, pieces, writeCode_eq hb ha]
      rfl
  | etleftassign e1 e2, hb, ha => by
      simp only [built, accepted, Bool.and_eq_true] at hb ha
      funext ec
      rw [writeCode, pieces, writeCode_eq hb.1 ha.1, writeCode_eq hb.2 ha.2, write_bind, write_bind]
      rfl
  | etspecialassign e1 e2, hb, ha => by
      simp only [built, accepted, Bool.and_eq_true] at hb ha
      funext ec
      rw [writeCode, pieces, writeCode_eq hb.1 ha.1, writeCode_eq hb.2 ha.2, write_bind, write_bind]
      rfl
  | etrequest e1 e2, hb, ha => by
      simp only [built, accepted, Bool.and_eq_true] at hb ha
      funext ec
      rw [writeCode, pieces, writeCode_eq hb.1 ha.1, writeCode_eq hb.2 ha.2, write_bind, write_bind]
      rfl
  | ettaggedexpr symb ref e, hb, ha => by
      simp only [built, accepted, Bool.and_eq_true] at hb ha
      funext ec
      rw [writeCode, pieces, writeSymbol_eq, writeCode_eq hb.2 ha, write_bind, write_bind]
      rfl
  | etfunction (f :: fs) body, hb, ha => by
      simp only [built, accepted, builtAll, acceptedAll, Bool.and_eq_true] at hb ha
      funext ec
      rw [writeCode, pieces, piecesAll, writeCode_eq hb.1.2.1 ha.1.2.1,
        writeCodes_eq hb.1.2.2 ha.1.2.2, writeCode_eq hb.2 ha.2, write_bind, write_bind, write_bind]
      rfl
  | etfuncall e el, hb, ha => by
      simp only [built, accepted, Bool.and_eq_true] at hb ha
      funext ec
      rw [writeCode, pieces, writeCode_eq hb.1.1 ha.1, writeCodes_eq hb.2 ha.2, write_bind,
        write_bind]
      rfl
  | etarg ref e, hb, ha => by
      simp only [built, accepted] at hb ha
      funext ec
      rw [writeCode, pieces, writeCode_eq hb ha]
      rfl

theorem writeCodes_eq : ∀ {el : List E}, builtAll el = true → acceptedAll el = true →
    writeCodes el = write (piecesAll el)
  | [], _, _ => by funext ec; rw [writeCodes, piecesAll]; rfl
  | e :: el, hb, ha => by
      simp only [builtAll, acceptedAll, Bool.and_eq_true] at hb ha
      funext ec
      rw [writeCodes, piecesAll, writeCode_eq hb.1 ha.1, writeCodes_eq hb.2 ha.2, write_append]

end

/-! ## The length -/

/-- A length that is there, is at most the number of bytes, and is that number exactly
when a condition holds. -/
def Counted (r : Option Nat) (size : Nat) (ok : Bool) : Prop :=
  ∃ c, r = some c ∧ c ≤ size ∧ (c = size ↔ ok = true)

theorem counted_some (n : Nat) : Counted (some n) n true := ⟨n, rfl, le_rfl, by simp⟩

theorem Counted.add {r : Option Nat} {n : Nat} {b : Bool} (h : Counted r n b) (k : Nat) :
    Counted (r.map fun m => k + m) (k + n) b := by
  obtain ⟨c, rfl, hle, hiff⟩ := h
  refine ⟨k + c, rfl, by omega, ?_⟩
  rw [← hiff]
  omega

theorem Counted.add₂ {r₁ r₂ : Option Nat} {n₁ n₂ : Nat} {b₁ b₂ : Bool} (h₁ : Counted r₁ n₁ b₁)
    (h₂ : Counted r₂ n₂ b₂) (k : Nat) :
    Counted (r₁.bind fun n => r₂.map fun m => k + n + m) (k + n₁ + n₂) (b₁ && b₂) := by
  obtain ⟨c₁, rfl, hle₁, hiff₁⟩ := h₁
  obtain ⟨c₂, rfl, hle₂, hiff₂⟩ := h₂
  refine ⟨k + c₁ + c₂, rfl, by omega, ?_⟩
  rw [Bool.and_eq_true, ← hiff₁, ← hiff₂]
  omega

theorem Counted.add₃ {r₁ r₂ r₃ : Option Nat} {n₁ n₂ n₃ : Nat} {b₁ b₂ b₃ : Bool}
    (h₁ : Counted r₁ n₁ b₁) (h₂ : Counted r₂ n₂ b₂) (h₃ : Counted r₃ n₃ b₃) (k : Nat) :
    Counted (r₁.bind fun n => r₂.bind fun m => r₃.map fun l => k + n + m + l)
      (k + n₁ + n₂ + n₃) (b₁ && b₂ && b₃) := by
  obtain ⟨c₁, rfl, hle₁, hiff₁⟩ := h₁
  obtain ⟨c₂, rfl, hle₂, hiff₂⟩ := h₂
  obtain ⟨c₃, rfl, hle₃, hiff₃⟩ := h₃
  refine ⟨k + c₁ + c₂ + c₃, rfl, by omega, ?_⟩
  rw [Bool.and_eq_true, Bool.and_eq_true, ← hiff₁, ← hiff₂, ← hiff₃]
  omega

/-- A list that is counted from `len` on, where `full` should have been counted. -/
def CountedFrom (len full : Nat) (r : Option Nat) (size : Nat) (last ok : Bool) : Prop :=
  ∃ c, r = some c ∧ c ≤ full + size ∧
    (c = full + size ↔ len = full ∧ (last = true ∨ full + size < 2 ^ 32) ∧ ok = true)

theorem getAlignedLength_le {n : Nat} (h : n < CHUNKSZ) : n ≤ getAlignedLength n := by
  unfold getAlignedLength AppendMessage.STRALIGN
  simp only [CHUNKSZ] at h
  split <;> omega

theorem length_string {t : List UInt8} (h : t.length < CHUNKSZ) :
    (Piece.string t).image.length = 8 + getAlignedLength t.length := by
  have hle := getAlignedLength_le h
  simp only [Piece.image, List.length_append, length_leBytes, List.length_replicate]
  omega

theorem Short.left {ps qs : List Piece} (h : Short (ps ++ qs)) : Short ps :=
  fun t ht => h t (List.mem_append_left _ ht)

theorem Short.right {ps qs : List Piece} (h : Short (ps ++ qs)) : Short qs :=
  fun t ht => h t (List.mem_append_right _ ht)

theorem Short.head {t : List UInt8} {ps qs : List Piece} (h : Short (ps ++ .string t :: qs)) :
    t.length < CHUNKSZ := h t (by simp)

theorem length_piecesSymbol {s : String} {ref : Bool} (h : (chars s).length < CHUNKSZ) :
    (image (piecesSymbol s ref)).length = codeLengthSymbol s := by
  simp only [piecesSymbol, image_cons, image_nil, List.length_append, length_string h]
  simp only [Piece.image, length_leBytes, List.length_nil, codeLengthSymbol]
  omega

theorem codeSize_etunop (op : Nat) (e : E) :
    codeSize (etunop op e) = 16 + codeSize e := by
  simp [codeSize, pieces, Piece.image]
  omega

theorem codeSize_etbinop (op : Nat) (left right attrib : E) :
    codeSize (etbinop op left right attrib) = 16 + codeSize left + codeSize right := by
  simp [codeSize, pieces, Piece.image]
  omega

theorem codeSize_etexprlist (el : List E) :
    codeSize (etexprlist el) = 16 + codeSizes el := by
  simp [codeSize, codeSizes, pieces, Piece.image]
  omega

theorem codeSize_etwhile (e1 e2 : E) :
    codeSize (etwhile e1 e2) = 8 + codeSize e1 + codeSize e2 := by
  simp [codeSize, pieces, Piece.image]
  omega

theorem codeSize_etifelse (e1 e2 e3 : E) :
    codeSize (etifelse e1 e2 e3) = 8 + codeSize e1 + codeSize e2 + codeSize e3 := by
  simp [codeSize, pieces, Piece.image]
  omega

theorem codeSize_etfor (forloop : E) :
    codeSize (etfor forloop) = 8 + codeSize forloop := by
  simp [codeSize, pieces, Piece.image]

theorem codeSize_etleftassign (e1 e2 : E) :
    codeSize (etleftassign e1 e2) = 8 + codeSize e1 + codeSize e2 := by
  simp [codeSize, pieces, Piece.image]
  omega

theorem codeSize_etspecialassign (e1 e2 : E) :
    codeSize (etspecialassign e1 e2) = 8 + codeSize e1 + codeSize e2 := by
  simp [codeSize, pieces, Piece.image]
  omega

theorem codeSize_etrequest (e1 e2 : E) :
    codeSize (etrequest e1 e2) = 8 + codeSize e1 + codeSize e2 := by
  simp [codeSize, pieces, Piece.image]
  omega

theorem codeSize_etfuncall (e : E) (el : List E) :
    codeSize (etfuncall e el) = 8 + codeSize e + (16 + codeSizes el) := by
  simp [codeSize, codeSizes, pieces, Piece.image]
  omega

theorem codeSize_etarg (ref : Bool) (e : E) :
    codeSize (etarg ref e) = 16 + codeSize e := by
  simp [codeSize, pieces, Piece.image]
  omega

theorem codeSize_etfunction (formlist : List E) (body : E) :
    codeSize (etfunction formlist body) = 8 + (16 + codeSizes formlist) + codeSize body := by
  simp [codeSize, codeSizes, pieces, Piece.image]
  omega

theorem codeSize_ettaggedexpr {symb : String} {ref : Bool} {e : E}
    (h : (chars symb).length < CHUNKSZ) :
    codeSize (ettaggedexpr symb ref e) = 8 + codeLengthSymbol symb + codeSize e := by
  simp [codeSize, pieces, Piece.image, length_piecesSymbol h]
  omega

theorem codeSize_string {s : String} (h : (chars s).length < CHUNKSZ) :
    codeSize (literal (.string s)) = 8 + 8 + getAlignedLength (chars s).length := by
  rw [codeSize, pieces, image_cons, image_cons, List.length_append, List.length_append,
    length_string h]
  simp [Piece.image]
  omega

theorem codeSize_boundvar {s : String} (h : (chars s).length < CHUNKSZ) :
    codeSize (etboundvar s) = 8 + 8 + getAlignedLength (chars s).length := by
  rw [codeSize, pieces, image_cons, image_cons, List.length_append, List.length_append,
    length_string h]
  simp [Piece.image]
  omega

theorem codeSize_symbol {s : String} {ref : Bool} (h : (chars s).length < CHUNKSZ) :
    codeSize (etsymbol s ref) = codeLengthSymbol s := by
  rw [codeSize, pieces, length_piecesSymbol h]

theorem codeLengths_cons {e : E} {el : List E} {len full n m : Nat} {b b' : Bool}
    (he : Counted (codeLength e) n b)
    (hel : ∀ l, l ≤ full + n → CountedFrom l (full + n) (codeLengths l el) m el.isEmpty b')
    (hm : el = [] → m = 0) (hlen : len ≤ full) :
    CountedFrom len full (codeLengths len (e :: el)) (n + m) false (b && b') := by
  obtain ⟨c, hc, hle, hiff⟩ := he
  have hmod : (len + c) % 2 ^ 32 ≤ len + c := Nat.mod_le _ _
  obtain ⟨d, hd, hdle, hdiff⟩ := hel ((len + c) % 2 ^ 32) (by omega)
  refine ⟨d, by rw [codeLengths, hc]; exact hd, by omega, ?_⟩
  rw [← Nat.add_assoc, hdiff, Bool.and_eq_true, ← hiff]
  have hlast : el.isEmpty = true → m = 0 := fun h => hm (List.isEmpty_iff.mp h)
  constructor
  · rintro ⟨heq, hor, hb'⟩
    refine ⟨by omega, Or.inr ?_, by omega, hb'⟩
    rcases hor with h | h
    · have := hlast h
      have := Nat.mod_lt (len + c) (Nat.two_pow_pos 32)
      omega
    · exact h
  · rintro ⟨heq, hor, heq', hb'⟩
    rcases hor with h | h
    · cases h
    · exact ⟨by rw [Nat.mod_eq_of_lt] <;> omega, Or.inr h, hb'⟩

/-- A list is counted when it is counted from its header on. -/
theorem CountedFrom.counted {r : Option Nat} {n : Nat} {last b : Bool}
    (h : CountedFrom 16 16 r n last b) (hlast : last = true → n = 0) :
    Counted r (16 + n) (decide (16 + n < 2 ^ 32) && b) := by
  obtain ⟨c, rfl, hle, hiff⟩ := h
  refine ⟨c, rfl, hle, ?_⟩
  rw [hiff, Bool.and_eq_true, decide_eq_true_eq]
  constructor
  · rintro ⟨-, hor, hb⟩
    refine ⟨hor.elim (fun h => ?_) id, hb⟩
    have := hlast h
    omega
  · rintro ⟨hlt, hb⟩
    exact ⟨rfl, Or.inr hlt, hb⟩

theorem codeSizes_nil_of_isEmpty {el : List E} (h : el.isEmpty = true) : codeSizes el = 0 := by
  rw [List.isEmpty_iff.mp h]
  rfl

mutual

theorem codeLength_counted : ∀ {e : E}, built e = true → accepted e = true → Short (pieces e) →
    Counted (codeLength e) (codeSize e) (small e)
  | etnull, _, _, _ => by rw [codeLength]; exact counted_some 8
  | etnext, _, _, _ => by rw [codeLength]; exact counted_some 8
  | etbreak, _, _, _ => by rw [codeLength]; exact counted_some 8
  | literal (.bool _), _, _, _ => by rw [codeLength]; exact counted_some 16
  | literal (.double _), _, _, _ => by rw [codeLength]; exact counted_some 16
  | literal (.dtime _), _, _, _ => by rw [codeLength]; exact counted_some 16
  | literal (.interval _ _ _ _), _, _, _ => by rw [codeLength]; exact counted_some 32
  | literal (.string s), hb, ha, hs => by
      rw [pieces] at hs
      rw [codeLength, zchars_of_accepted hb ha]
      rw [codeSize_string (hs _ (by simp))]
      exact counted_some _
  | etsymbol s ref, _, _, hs => by
      rw [pieces, piecesSymbol] at hs
      rw [codeLength, codeSize_symbol (hs _ (by simp))]
      exact counted_some _
  | etboundvar s, _, _, hs => by
      rw [pieces] at hs
      rw [codeLength]
      rw [codeSize_boundvar (hs _ (by simp))]
      exact counted_some _
  | etunop op e, hb, ha, hs => by
      simp only [built, accepted, Bool.and_eq_true] at hb ha
      rw [pieces] at hs
      have h := (codeLength_counted hb.2 ha hs.right).add 16
      rw [codeLength, small]
      rw [codeSize_etunop]
      exact h
  | etbinop op left right attrib, hb, ha, hs => by
      simp only [built, accepted, Bool.and_eq_true] at hb ha
      rw [pieces] at hs
      have h := (codeLength_counted hb.1.1.2 ha.1 hs.right.left).add₂
        (codeLength_counted hb.1.2 ha.2 hs.right.right) 16
      rw [codeLength, small]
      rw [codeSize_etbinop]
      exact h
  | etexprlist el, hb, ha, hs => by
      simp only [built, accepted, Bool.and_eq_true] at hb ha
      rw [pieces] at hs
      have h := (codeLengths_counted hb.2 ha hs.right 16 16 le_rfl).counted codeSizes_nil_of_isEmpty
      rw [codeLength, small]
      rw [codeSize_etexprlist]
      exact h
  | etwhile e1 e2, hb, ha, hs => by
      simp only [built, accepted, Bool.and_eq_true] at hb ha
      rw [pieces] at hs
      have h := (codeLength_counted hb.1 ha.1 hs.right.left).add₂
        (codeLength_counted hb.2 ha.2 hs.right.right) 8
      rw [codeLength, small]
      rw [codeSize_etwhile]
      exact h
  | etifelse e1 e2 e3, hb, ha, hs => by
      simp only [built, accepted, Bool.and_eq_true] at hb ha
      rw [pieces] at hs
      have h := (codeLength_counted hb.1.1 ha.1.1 hs.right.left).add₃
        (codeLength_counted hb.1.2 ha.1.2 hs.right.right.left)
        (codeLength_counted hb.2 ha.2 hs.right.right.right) 8
      rw [codeLength, small]
      rw [codeSize_etifelse]
      exact h
  | etfor forloop, hb, ha, hs => by
      simp only [built, accepted] at hb ha
      rw [pieces] at hs
      have h := (codeLength_counted hb ha hs.right).add 8
      rw [codeLength, small]
      rw [codeSize_etfor]
      exact h
  | etleftassign e1 e2, hb, ha, hs => by
      simp only [built, accepted, Bool.and_eq_true] at hb ha
      rw [pieces] at hs
      have h := (codeLength_counted hb.1 ha.1 hs.right.left).add₂
        (codeLength_counted hb.2 ha.2 hs.right.right) 8
      rw [codeLength, small]
      rw [codeSize_etleftassign]
      exact h
  | etspecialassign e1 e2, hb, ha, hs => by
      simp only [built, accepted, Bool.and_eq_true] at hb ha
      rw [pieces] at hs
      have h := (codeLength_counted hb.1 ha.1 hs.right.left).add₂
        (codeLength_counted hb.2 ha.2 hs.right.right) 8
      rw [codeLength, small]
      rw [codeSize_etspecialassign]
      exact h
  | etrequest e1 e2, hb, ha, hs => by
      simp only [built, accepted, Bool.and_eq_true] at hb ha
      rw [pieces] at hs
      have h := (codeLength_counted hb.1 ha.1 hs.right.left).add₂
        (codeLength_counted hb.2 ha.2 hs.right.right) 8
      rw [codeLength, small]
      rw [codeSize_etrequest]
      exact h
  | ettaggedexpr symb ref e, hb, ha, hs => by
      simp only [built, accepted, Bool.and_eq_true] at hb ha
      rw [pieces] at hs
      have h := (codeLength_counted hb.2 ha hs.right.right).add (8 + codeLengthSymbol symb)
      rw [codeLength, small]
      rw [codeSize_ettaggedexpr (hs (chars symb) (by simp [piecesSymbol]))]
      exact h
  | etfunction (f :: fs) body, hb, ha, hs => by
      simp only [built, accepted, Bool.and_eq_true] at hb ha
      rw [pieces] at hs
      have hl := (codeLengths_counted hb.1.2 ha.1.2 hs.right.left 16 16 le_rfl).counted
        codeSizes_nil_of_isEmpty
      have h := hl.add₂ (codeLength_counted hb.2 ha.2 hs.right.right) 8
      rw [codeLength, small]
      rw [codeSize_etfunction]
      rw [codeLengths, Option.bind_assoc] at h
      exact h
  | etfuncall e el, hb, ha, hs => by
      simp only [built, accepted, Bool.and_eq_true] at hb ha
      rw [pieces] at hs
      have hl := (codeLengths_counted hb.2 ha.2 hs.right.right.right 16 16 le_rfl).counted
        codeSizes_nil_of_isEmpty
      have h := (codeLength_counted hb.1.1 ha.1 hs.right.left).add₂ hl 8
      rw [codeLength, small, Bool.and_assoc]
      rw [codeSize_etfuncall]
      exact h
  | etarg ref e, hb, ha, hs => by
      simp only [built, accepted] at hb ha
      rw [pieces] at hs
      have h := (codeLength_counted hb ha hs.right).add 16
      rw [codeLength, small]
      rw [codeSize_etarg]
      exact h

theorem codeLengths_counted : ∀ {el : List E}, builtAll el = true → acceptedAll el = true →
    Short (piecesAll el) → ∀ len full, len ≤ full →
    CountedFrom len full (codeLengths len el) (codeSizes el) el.isEmpty (smallAll el)
  | [], _, _, _, len, full, hle => ⟨len, by rw [codeLengths], by omega, by
      show len = full + 0 ↔ _
      simp [smallAll]⟩
  | e :: el, hb, ha, hs, len, full, hle => by
      simp only [builtAll, acceptedAll, Bool.and_eq_true] at hb ha
      rw [piecesAll] at hs
      have hsize : codeSizes (e :: el) = codeSize e + codeSizes el := by
        simp [codeSize, codeSizes, piecesAll]
      rw [hsize, smallAll]
      exact codeLengths_cons (codeLength_counted hb.1 ha.1 hs.left)
        (fun l hl => codeLengths_counted hb.2 ha.2 hs.right l _ hl) (fun h => by rw [h]; rfl) hle

end

mutual

/-- A tree with a length is accepted. -/
theorem accepted_of_codeLength : ∀ {e : E} {n : Nat}, built e = true → codeLength e = some n →
    accepted e = true
  | etnull, _, _, _ => rfl
  | etnext, _, _, _ => rfl
  | etbreak, _, _, _ => rfl
  | etellipsis, _, _, h => by cases h
  | literal (.bool _), _, _, _ => rfl
  | literal (.double _), _, _, _ => rfl
  | literal (.dtime _), _, _, _ => rfl
  | literal (.interval _ _ _ _), _, _, _ => rfl
  | literal (.string s), _, hb, h => by
      rw [codeLength, Option.map_eq_some_iff] at h
      obtain ⟨t, ht, -⟩ := h
      simp only [built, Bool.and_eq_true, List.all_eq_true, decide_eq_true_eq] at hb
      exact decide_eq_true (zchars_eq ht hb.2).2
  | etsymbol _ _, _, _, _ => rfl
  | etboundvar _, _, _, _ => rfl
  | etescape _, _, _, h => by cases h
  | etunop op e, _, hb, h => by
      simp only [built, Bool.and_eq_true] at hb
      simp only [codeLength, Option.map_eq_some_iff] at h
      obtain ⟨_, h, -⟩ := h
      exact accepted_of_codeLength (e := e) hb.2 h
  | etbinop op left right attrib, _, hb, h => by
      simp only [built, Bool.and_eq_true] at hb
      simp only [codeLength, Option.bind_eq_some_iff, Option.map_eq_some_iff] at h
      obtain ⟨_, h1, _, h2, -⟩ := h
      rw [accepted, accepted_of_codeLength hb.1.1.2 h1, accepted_of_codeLength hb.1.2 h2]
      rfl
  | etexprlist el, _, hb, h => by
      simp only [built, Bool.and_eq_true] at hb
      rw [codeLength] at h
      exact acceptedAll_of_codeLengths hb.2 h
  | etwhile e1 e2, _, hb, h => by
      simp only [built, Bool.and_eq_true] at hb
      simp only [codeLength, Option.bind_eq_some_iff, Option.map_eq_some_iff] at h
      obtain ⟨_, h1, _, h2, -⟩ := h
      rw [accepted, accepted_of_codeLength hb.1 h1, accepted_of_codeLength hb.2 h2]
      rfl
  | etifelse e1 e2 e3, _, hb, h => by
      simp only [built, Bool.and_eq_true] at hb
      simp only [codeLength, Option.bind_eq_some_iff, Option.map_eq_some_iff] at h
      obtain ⟨_, h1, _, h2, _, h3, -⟩ := h
      rw [accepted, accepted_of_codeLength hb.1.1 h1, accepted_of_codeLength hb.1.2 h2,
        accepted_of_codeLength hb.2 h3]
      rfl
  | etfor forloop, _, hb, h => by
      simp only [codeLength, Option.map_eq_some_iff] at h
      obtain ⟨_, h, -⟩ := h
      exact accepted_of_codeLength (e := forloop) hb h
  | etleftassign e1 e2, _, hb, h => by
      simp only [built, Bool.and_eq_true] at hb
      simp only [codeLength, Option.bind_eq_some_iff, Option.map_eq_some_iff] at h
      obtain ⟨_, h1, _, h2, -⟩ := h
      rw [accepted, accepted_of_codeLength hb.1 h1, accepted_of_codeLength hb.2 h2]
      rfl
  | etspecialassign e1 e2, _, hb, h => by
      simp only [built, Bool.and_eq_true] at hb
      simp only [codeLength, Option.bind_eq_some_iff, Option.map_eq_some_iff] at h
      obtain ⟨_, h1, _, h2, -⟩ := h
      rw [accepted, accepted_of_codeLength hb.1 h1, accepted_of_codeLength hb.2 h2]
      rfl
  | etrequest e1 e2, _, hb, h => by
      simp only [built, Bool.and_eq_true] at hb
      simp only [codeLength, Option.bind_eq_some_iff, Option.map_eq_some_iff] at h
      obtain ⟨_, h1, _, h2, -⟩ := h
      rw [accepted, accepted_of_codeLength hb.1 h1, accepted_of_codeLength hb.2 h2]
      rfl
  | ettaggedexpr symb ref e, _, hb, h => by
      simp only [built, Bool.and_eq_true] at hb
      simp only [codeLength, Option.map_eq_some_iff] at h
      obtain ⟨_, h, -⟩ := h
      exact accepted_of_codeLength (e := e) hb.2 h
  | etfunction [] _, _, _, h => by
      rw [codeLength] at h
      cases h
  | etfunction (f :: fs) body, _, hb, h => by
      simp only [built, builtAll, Bool.and_eq_true] at hb
      simp only [codeLength, Option.bind_eq_some_iff, Option.map_eq_some_iff] at h
      obtain ⟨_, h1, _, h2, _, h3, -⟩ := h
      rw [accepted, acceptedAll, accepted_of_codeLength hb.1.2.1 h1,
        acceptedAll_of_codeLengths hb.1.2.2 h2, accepted_of_codeLength hb.2 h3]
      rfl
  | etfuncall e el, _, hb, h => by
      simp only [built, Bool.and_eq_true] at hb
      simp only [codeLength, Option.bind_eq_some_iff, Option.map_eq_some_iff] at h
      obtain ⟨_, h1, _, h2, -⟩ := h
      rw [accepted, accepted_of_codeLength hb.1.1 h1, acceptedAll_of_codeLengths hb.2 h2]
      rfl
  | etarg ref e, _, hb, h => by
      simp only [codeLength, Option.map_eq_some_iff] at h
      obtain ⟨_, h, -⟩ := h
      exact accepted_of_codeLength (e := e) hb h

theorem acceptedAll_of_codeLengths : ∀ {el : List E} {len n : Nat}, builtAll el = true →
    codeLengths len el = some n → acceptedAll el = true
  | [], _, _, _, _ => rfl
  | e :: el, len, n, hb, h => by
      simp only [builtAll, Bool.and_eq_true] at hb
      rw [codeLengths, Option.bind_eq_some_iff] at h
      obtain ⟨k, hk, hel⟩ := h
      rw [acceptedAll, accepted_of_codeLength hb.1 hk, acceptedAll_of_codeLengths hb.2 hel]
      rfl

end

/-! ## The reader -/

theorem readWord_cons {buf bs : List UInt8} {off k n : Nat} (h : At buf off (leBytes k n ++ bs))
    (hn : n < 256 ^ k) : readWord k buf off = some (n, off + k) ∧ At buf (off + k) bs := by
  have hr := h.right
  rw [length_leBytes] at hr
  exact ⟨readWord_at h.left hn, hr⟩

theorem readEtype {buf bs : List UInt8} {off : Nat} {t : Etype}
    (h : At buf off (leBytes 8 t.num ++ bs)) :
    readWord 8 buf off = some (t.num, off + 8) ∧ At buf (off + 8) bs :=
  readWord_cons h (t.num_lt.trans (by decide))

theorem readString_at {buf t bs : List UInt8} {off : Nat} (ht : t.length < CHUNKSZ)
    (h : At buf off ((Piece.string t).image ++ bs)) :
    readString buf off = some (t, off + 8) ∧ At buf (off + 8 + getAlignedLength t.length) bs := by
  have hr := h.right
  rw [length_string ht, ← Nat.add_assoc] at hr
  have hlt : t.length < 2 ^ 32 := ht.trans (by decide)
  obtain ⟨hw, ht'⟩ := readWord_cons h.left (hlt.trans (by decide))
  have hle := ht'.left.length_le
  have hs := ht'.left.slice
  refine ⟨?_, hr⟩
  simp only [readString, hw, Option.bind_some, Nat.mod_eq_of_lt hlt, if_pos hle, hs]

theorem at_code {buf bs : List UInt8} {off : Nat} {e : E} (h : At buf off (image (pieces e) ++ bs)) :
    At buf off (image (pieces e)) ∧ At buf (off + codeSize e) bs := ⟨h.left, h.right⟩

theorem ofNat_toNat_ne_zero (b : Bool) : decide (b.toNat ≠ 0) = b := by cases b <;> rfl

theorem bool_lt (b : Bool) : b.toNat < 256 ^ 8 := by cases b <;> decide

theorem unsigned_lt {n : Nat} (h : n < 2 ^ 32) : n < 256 ^ 8 := h.trans (by decide)

theorem readSymbol_at (fuel : Nat) {buf bs : List UInt8} {off : Nat} {s : String} {ref : Bool}
    (hs : isBytes s = true) (ht : (chars s).length < CHUNKSZ)
    (h : At buf off (image (piecesSymbol s ref) ++ bs)) :
    readCode (fuel + 1) buf off = some (etsymbol s ref, off + codeLengthSymbol s) ∧
      At buf (off + codeLengthSymbol s) bs := by
  have hr := h.right
  rw [length_piecesSymbol ht] at hr
  refine ⟨?_, hr⟩
  have hl := h.left
  rw [piecesSymbol, image_cons, image_cons, image_cons] at hl
  obtain ⟨h1, hl⟩ := readEtype hl
  obtain ⟨h2, hl⟩ := readString_at ht hl
  obtain ⟨h3, -⟩ := readWord_cons hl (bool_lt ref)
  simp only [readCode, h1, Option.bind_some, Etype.ofNum_num, h2, h3, Option.map_some,
    ofNat_toNat_ne_zero, text_chars hs]
  congr 2
  rw [codeLengthSymbol]
  omega

/-- A list is read when its elements are. -/
theorem readList_at {buf bs : List UInt8} {off fuel : Nat} {el : List E} (hn : el.length < 2 ^ 32)
    (h : At buf off (leBytes 8 Etype.etexprlist.num ++ (leBytes 8 el.length ++ bs)))
    (hel : At buf (off + 16) bs → readEach (readCode fuel buf) el.length (off + 16) =
      some (el, off + 16 + codeSizes el)) :
    readCode (fuel + 1) buf off = some (etexprlist el, off + (16 + codeSizes el)) ∧
      At buf (off + 16) bs := by
  obtain ⟨h1, h⟩ := readEtype h
  obtain ⟨h2, h⟩ := readWord_cons h (unsigned_lt hn)
  refine ⟨?_, h⟩
  have hel := hel h
  simp only [readCode, h1, Option.bind_some, Etype.ofNum_num, h2, Nat.mod_eq_of_lt hn]
  show (readEach _ _ (off + 16)).map _ = _
  rw [hel, Nat.add_assoc]
  rfl

/-- Two subtrees, one after the other. -/
theorem read_two {buf : List UInt8} {off fuel : Nat} {e1 e2 : E} (f : E → E → E)
    (h1 : readCode fuel buf off = some (e1, off + codeSize e1))
    (h2 : readCode fuel buf (off + codeSize e1) = some (e2, off + codeSize e1 + codeSize e2)) :
    ((readCode fuel buf off).bind fun (e1, off) =>
      (readCode fuel buf off).map fun (e2, off) => (f e1 e2, off)) =
      some (f e1 e2, off + codeSize e1 + codeSize e2) := by
  rw [h1]
  show (readCode fuel buf (off + codeSize e1)).map _ = _
  rw [h2]
  rfl

mutual

theorem readCode_at : ∀ {e : E}, built e = true → accepted e = true → Short (pieces e) →
    ∀ fuel buf off, codeSize e ≤ fuel → At buf off (image (pieces e)) →
    readCode fuel buf off = some (e, off + codeSize e)
  | etnull, _, _, _, fuel, buf, off, hf, h => by
      have hf : 8 ≤ fuel := hf
      obtain ⟨k, rfl⟩ : ∃ k, fuel = k + 1 := ⟨fuel - 1, by omega⟩
      rw [pieces, image_cons, image_nil] at h
      obtain ⟨h1, -⟩ := readEtype h
      simp only [readCode, h1, Option.bind_some, Etype.ofNum_num]
      rfl
  | etnext, _, _, _, fuel, buf, off, hf, h => by
      have hf : 8 ≤ fuel := hf
      obtain ⟨k, rfl⟩ : ∃ k, fuel = k + 1 := ⟨fuel - 1, by omega⟩
      rw [pieces, image_cons, image_nil] at h
      obtain ⟨h1, -⟩ := readEtype h
      simp only [readCode, h1, Option.bind_some, Etype.ofNum_num]
      rfl
  | etbreak, _, _, _, fuel, buf, off, hf, h => by
      have hf : 8 ≤ fuel := hf
      obtain ⟨k, rfl⟩ : ∃ k, fuel = k + 1 := ⟨fuel - 1, by omega⟩
      rw [pieces, image_cons, image_nil] at h
      obtain ⟨h1, -⟩ := readEtype h
      simp only [readCode, h1, Option.bind_some, Etype.ofNum_num]
      rfl
  | literal (.bool b), _, _, _, fuel, buf, off, hf, h => by
      have hf : 16 ≤ fuel := hf
      obtain ⟨k, rfl⟩ : ∃ k, fuel = k + 1 := ⟨fuel - 1, by omega⟩
      simp only [pieces, image_cons, Piece.image] at h
      obtain ⟨h1, h⟩ := readEtype h
      obtain ⟨h2, -⟩ := readWord_cons h (bool_lt b)
      simp only [readCode, h1, Option.bind_some, Etype.ofNum_num, h2, Option.map_some, ofNat_toNat_ne_zero]
      rfl
  | literal (.double d), _, _, _, fuel, buf, off, hf, h => by
      have hf : 16 ≤ fuel := hf
      obtain ⟨k, rfl⟩ : ∃ k, fuel = k + 1 := ⟨fuel - 1, by omega⟩
      simp only [pieces, image_cons, Piece.image] at h
      obtain ⟨h1, h⟩ := readEtype h
      obtain ⟨h2, -⟩ := readWord_cons h (d.toNat_lt)
      simp only [readCode, h1, Option.bind_some, Etype.ofNum_num, h2, Option.map_some, UInt64.ofNat_toNat]
      rfl
  | literal (.dtime d), _, _, _, fuel, buf, off, hf, h => by
      have hf : 16 ≤ fuel := hf
      obtain ⟨k, rfl⟩ : ∃ k, fuel = k + 1 := ⟨fuel - 1, by omega⟩
      simp only [pieces, image_cons, Piece.image] at h
      obtain ⟨h1, h⟩ := readEtype h
      obtain ⟨h2, -⟩ := readWord_cons h (d.toUInt64.toNat_lt)
      simp only [readCode, h1, Option.bind_some, Etype.ofNum_num, h2, Option.map_some, UInt64.ofNat_toNat, Int64.toInt64_toUInt64]
      rfl
  | literal (.interval s e sopen eopen), hb, _, _, fuel, buf, off, hf, h => by
      have hf : 32 ≤ fuel := hf
      obtain ⟨k, rfl⟩ : ∃ k, fuel = k + 1 := ⟨fuel - 1, by omega⟩
      simp only [pieces, image_cons, Piece.image] at h
      obtain ⟨h1, h⟩ := readEtype h
      obtain ⟨h2, h⟩ := readWord_cons h s.toUInt64.toNat_lt
      obtain ⟨h3, h⟩ := readWord_cons h e.toUInt64.toNat_lt
      obtain ⟨h4, h⟩ := readWord_cons h sopen.toNat_lt
      obtain ⟨h5, -⟩ := readWord_cons h eopen.toNat_lt
      have hle : ¬ e < s := Int64.not_lt.mpr (of_decide_eq_true hb)
      simp only [readCode, h1, Option.bind_some, Etype.ofNum_num, h2, h3, h4, h5,
        UInt64.ofNat_toNat, UInt32.ofNat_toNat, Int64.toInt64_toUInt64, if_neg hle]
      rfl
  | literal (.string s), hb, ha, hs, fuel, buf, off, hf, h => by
      simp only [built, accepted, Bool.and_eq_true, List.all_eq_true, decide_eq_true_eq] at hb ha
      have ht : (chars s).length < CHUNKSZ := hs (chars s) (by simp [pieces])
      rw [codeSize_string ht] at hf ⊢
      obtain ⟨k, rfl⟩ : ∃ k, fuel = k + 1 := ⟨fuel - 1, by omega⟩
      rw [pieces, image_cons, image_cons] at h
      obtain ⟨h1, h⟩ := readEtype h
      obtain ⟨h2, -⟩ := readString_at ht h
      simp only [readCode, h1, Option.bind_some, Etype.ofNum_num, h2, Option.map_some,
        zread_eq hb.2 ha, text_chars hb.1]
      congr 2
      omega
  | etsymbol s ref, hb, _, hs, fuel, buf, off, hf, h => by
      have ht : (chars s).length < CHUNKSZ := hs (chars s) (by simp [pieces, piecesSymbol])
      rw [codeSize_symbol ht] at hf ⊢
      obtain ⟨k, rfl⟩ : ∃ k, fuel = k + 1 :=
        ⟨fuel - 1, by rw [codeLengthSymbol] at hf; omega⟩
      rw [pieces, ← List.append_nil (image _)] at h
      exact (readSymbol_at k hb ht h).1
  | etboundvar s, hb, _, hs, fuel, buf, off, hf, h => by
      have ht : (chars s).length < CHUNKSZ := hs (chars s) (by simp [pieces])
      rw [codeSize_boundvar ht] at hf ⊢
      obtain ⟨k, rfl⟩ : ∃ k, fuel = k + 1 := ⟨fuel - 1, by omega⟩
      rw [pieces, image_cons, image_cons] at h
      obtain ⟨h1, h⟩ := readEtype h
      obtain ⟨h2, -⟩ := readString_at ht h
      simp only [readCode, h1, Option.bind_some, Etype.ofNum_num, h2, Option.map_some,
        text_chars hb]
      congr 2
      omega
  | etunop op e, hb, ha, hs, fuel, buf, off, hf, h => by
      simp only [built, accepted, Bool.and_eq_true, decide_eq_true_eq] at hb ha
      rw [codeSize_etunop] at hf ⊢
      obtain ⟨k, rfl⟩ : ∃ k, fuel = k + 1 := ⟨fuel - 1, by omega⟩
      simp only [pieces, List.cons_append, List.nil_append, image_cons,
        Piece.image] at h
      rw [pieces] at hs
      obtain ⟨h1, h⟩ := readEtype h
      obtain ⟨h2, h⟩ := readWord_cons h (unsigned_lt hb.1)
      have r := readCode_at hb.2 ha hs.right k buf _ (by omega) h
      simp only [readCode, h1, Option.bind_some, Etype.ofNum_num, h2, Nat.mod_eq_of_lt hb.1, r,
        Option.map_some]
      congr 2
      omega
  | etbinop op left right attrib, hb, ha, hs, fuel, buf, off, hf, h => by
      simp only [built, accepted, Bool.and_eq_true, decide_eq_true_eq] at hb ha
      rw [codeSize_etbinop] at hf ⊢
      obtain ⟨k, rfl⟩ : ∃ k, fuel = k + 1 := ⟨fuel - 1, by omega⟩
      simp only [pieces, List.cons_append, List.nil_append, image_cons, image_append,
        Piece.image] at h
      rw [pieces] at hs
      obtain ⟨h1, h⟩ := readEtype h
      obtain ⟨h2, h⟩ := readWord_cons h (unsigned_lt hb.1.1.1)
      have r1 := readCode_at hb.1.1.2 ha.1 hs.right.left k buf _ (by omega) h.left
      have r2 := readCode_at hb.1.2 ha.2 hs.right.right k buf _ (by omega) h.right
      have hnull : attrib = etnull := by
        cases attrib with
        | etnull => rfl
        | _ => exact absurd hb.2 (by simp)
      subst hnull
      simp only [readCode, h1, Option.bind_some, Etype.ofNum_num, h2, Nat.mod_eq_of_lt hb.1.1.1]
      rw [read_two (fun e1 e2 => etbinop op e1 e2 etnull) r1 r2]
      congr 2
      omega
  | etexprlist el, hb, ha, hs, fuel, buf, off, hf, h => by
      simp only [built, accepted, Bool.and_eq_true, decide_eq_true_eq] at hb ha
      rw [codeSize_etexprlist] at hf ⊢
      obtain ⟨k, rfl⟩ : ∃ k, fuel = k + 1 := ⟨fuel - 1, by omega⟩
      simp only [pieces, List.cons_append, List.nil_append, image_cons,
        Piece.image] at h
      rw [pieces] at hs
      exact (readList_at hb.1 h fun h => readEach_at hb.2 ha hs.right k buf _ (by omega) h).1
  | etwhile e1 e2, hb, ha, hs, fuel, buf, off, hf, h => by
      simp only [built, accepted, Bool.and_eq_true] at hb ha
      rw [codeSize_etwhile] at hf ⊢
      obtain ⟨k, rfl⟩ : ∃ k, fuel = k + 1 := ⟨fuel - 1, by omega⟩
      simp only [pieces, List.cons_append, List.nil_append, image_cons, image_append,
        Piece.image] at h
      rw [pieces] at hs
      obtain ⟨h1, h⟩ := readEtype h
      have r1 := readCode_at hb.1 ha.1 hs.right.left k buf (off + 8) (by omega) h.left
      have r2 := readCode_at hb.2 ha.2 hs.right.right k buf _ (by omega) h.right
      simp only [readCode, h1, Option.bind_some, Etype.ofNum_num]
      rw [read_two etwhile r1 r2]
      congr 2
      omega
  | etifelse e1 e2 e3, hb, ha, hs, fuel, buf, off, hf, h => by
      simp only [built, accepted, Bool.and_eq_true] at hb ha
      rw [codeSize_etifelse] at hf ⊢
      obtain ⟨k, rfl⟩ : ∃ k, fuel = k + 1 := ⟨fuel - 1, by omega⟩
      simp only [pieces, List.cons_append, List.nil_append, image_cons, image_append,
        Piece.image] at h
      rw [pieces] at hs
      obtain ⟨h1, h⟩ := readEtype h
      have r1 := readCode_at hb.1.1 ha.1.1 hs.right.left k buf (off + 8) (by omega) h.left
      have h := (at_code h).2
      have r2 := readCode_at hb.1.2 ha.1.2 hs.right.right.left k buf _ (by omega) h.left
      have r3 := readCode_at hb.2 ha.2 hs.right.right.right k buf _ (by omega) (at_code h).2
      simp only [readCode, h1, Option.bind_some, Etype.ofNum_num, r1]
      rw [read_two (etifelse e1) r2 r3]
      congr 2
      omega
  | etfor forloop, hb, ha, hs, fuel, buf, off, hf, h => by
      rw [codeSize_etfor] at hf ⊢
      obtain ⟨k, rfl⟩ : ∃ k, fuel = k + 1 := ⟨fuel - 1, by omega⟩
      simp only [pieces, List.cons_append, List.nil_append, image_cons,
        Piece.image] at h
      rw [pieces] at hs
      obtain ⟨h1, h⟩ := readEtype h
      have r := readCode_at (e := forloop) hb ha hs.right k buf _ (by omega) h
      simp only [readCode, h1, Option.bind_some, Etype.ofNum_num, r, Option.map_some]
      congr 2
      omega
  | etleftassign e1 e2, hb, ha, hs, fuel, buf, off, hf, h => by
      simp only [built, accepted, Bool.and_eq_true] at hb ha
      rw [codeSize_etleftassign] at hf ⊢
      obtain ⟨k, rfl⟩ : ∃ k, fuel = k + 1 := ⟨fuel - 1, by omega⟩
      simp only [pieces, List.cons_append, List.nil_append, image_cons, image_append,
        Piece.image] at h
      rw [pieces] at hs
      obtain ⟨h1, h⟩ := readEtype h
      have r1 := readCode_at hb.1 ha.1 hs.right.left k buf (off + 8) (by omega) h.left
      have r2 := readCode_at hb.2 ha.2 hs.right.right k buf _ (by omega) h.right
      simp only [readCode, h1, Option.bind_some, Etype.ofNum_num]
      rw [read_two etleftassign r1 r2]
      congr 2
      omega
  | etspecialassign e1 e2, hb, ha, hs, fuel, buf, off, hf, h => by
      simp only [built, accepted, Bool.and_eq_true] at hb ha
      rw [codeSize_etspecialassign] at hf ⊢
      obtain ⟨k, rfl⟩ : ∃ k, fuel = k + 1 := ⟨fuel - 1, by omega⟩
      simp only [pieces, List.cons_append, List.nil_append, image_cons, image_append,
        Piece.image] at h
      rw [pieces] at hs
      obtain ⟨h1, h⟩ := readEtype h
      have r1 := readCode_at hb.1 ha.1 hs.right.left k buf (off + 8) (by omega) h.left
      have r2 := readCode_at hb.2 ha.2 hs.right.right k buf _ (by omega) h.right
      simp only [readCode, h1, Option.bind_some, Etype.ofNum_num]
      rw [read_two etspecialassign r1 r2]
      congr 2
      omega
  | etrequest e1 e2, hb, ha, hs, fuel, buf, off, hf, h => by
      simp only [built, accepted, Bool.and_eq_true] at hb ha
      rw [codeSize_etrequest] at hf ⊢
      obtain ⟨k, rfl⟩ : ∃ k, fuel = k + 1 := ⟨fuel - 1, by omega⟩
      simp only [pieces, List.cons_append, List.nil_append, image_cons, image_append,
        Piece.image] at h
      rw [pieces] at hs
      obtain ⟨h1, h⟩ := readEtype h
      have r1 := readCode_at hb.1 ha.1 hs.right.left k buf (off + 8) (by omega) h.left
      have r2 := readCode_at hb.2 ha.2 hs.right.right k buf _ (by omega) h.right
      simp only [readCode, h1, Option.bind_some, Etype.ofNum_num]
      rw [read_two etrequest r1 r2]
      congr 2
      omega
  | ettaggedexpr symb ref e, hb, ha, hs, fuel, buf, off, hf, h => by
      simp only [built, accepted, Bool.and_eq_true] at hb ha
      have ht : (chars symb).length < CHUNKSZ := hs (chars symb) (by simp [pieces, piecesSymbol])
      rw [codeSize_ettaggedexpr ht] at hf ⊢
      obtain ⟨k, rfl⟩ : ∃ k, fuel = k + 2 :=
        ⟨fuel - 2, by rw [codeLengthSymbol] at hf; omega⟩
      rw [pieces, List.cons_append, image_cons, List.nil_append, image_append] at h
      rw [pieces] at hs
      obtain ⟨h1, h⟩ := readEtype h
      obtain ⟨r1, h⟩ := readSymbol_at k hb.1 ht h
      have r2 := readCode_at hb.2 ha hs.right.right (k + 1) buf _
        (by rw [codeLengthSymbol] at hf; omega) h
      rw [readCode]
      simp only [h1, Option.bind_some, Etype.ofNum_num, r1, r2, Option.map_some]
      congr 2
      omega
  | etfunction formlist body, hb, ha, hs, fuel, buf, off, hf, h => by
      simp only [built, accepted, Bool.and_eq_true, decide_eq_true_eq] at hb ha
      rw [codeSize_etfunction] at hf ⊢
      obtain ⟨k, rfl⟩ : ∃ k, fuel = k + 2 := ⟨fuel - 2, by omega⟩
      simp only [pieces, List.cons_append, List.nil_append, image_cons, image_append,
        Piece.image] at h
      rw [pieces] at hs
      obtain ⟨h1, h⟩ := readEtype h
      obtain ⟨r1, h⟩ := readList_at hb.1.1 h fun h =>
        readEach_at hb.1.2 ha.1.2 hs.right.left k buf _ (by omega) h.left
      have h : At buf (off + 8 + 16 + codeSizes formlist) (image (pieces body)) := h.right
      rw [Nat.add_assoc (off + 8)] at h
      have r2 := readCode_at hb.2 ha.2 hs.right.right (k + 1) buf _ (by omega) h
      rw [readCode]
      simp only [h1, Option.bind_some, Etype.ofNum_num, r1, r2, Option.map_some]
      congr 2
      omega
  | etfuncall e el, hb, ha, hs, fuel, buf, off, hf, h => by
      simp only [built, accepted, Bool.and_eq_true, decide_eq_true_eq] at hb ha
      rw [codeSize_etfuncall] at hf ⊢
      obtain ⟨k, rfl⟩ : ∃ k, fuel = k + 2 := ⟨fuel - 2, by omega⟩
      simp only [pieces, List.cons_append, List.nil_append, image_cons, image_append,
        Piece.image] at h
      rw [pieces] at hs
      obtain ⟨h1, h⟩ := readEtype h
      have r1 := readCode_at hb.1.1 ha.1 hs.right.left (k + 1) buf _ (by omega) h.left
      obtain ⟨r2, -⟩ := readList_at hb.1.2 (at_code h).2 fun h =>
        readEach_at hb.2 ha.2 hs.right.right.right k buf _ (by omega) h
      rw [readCode]
      simp only [h1, Option.bind_some, Etype.ofNum_num, r1, r2]
      congr 2
      omega
  | etarg ref e, hb, ha, hs, fuel, buf, off, hf, h => by
      rw [codeSize_etarg] at hf ⊢
      obtain ⟨k, rfl⟩ : ∃ k, fuel = k + 1 := ⟨fuel - 1, by omega⟩
      simp only [pieces, List.cons_append, List.nil_append, image_cons,
        Piece.image] at h
      rw [pieces] at hs
      obtain ⟨h1, h⟩ := readEtype h
      obtain ⟨h2, h⟩ := readWord_cons h (bool_lt ref)
      have r := readCode_at (e := e) hb ha hs.right k buf _ (by omega) h
      simp only [readCode, h1, Option.bind_some, Etype.ofNum_num, h2, ofNat_toNat_ne_zero, r,
        Option.map_some]
      congr 2
      omega

theorem readEach_at : ∀ {el : List E}, builtAll el = true → acceptedAll el = true →
    Short (piecesAll el) → ∀ fuel buf off, codeSizes el ≤ fuel → At buf off (image (piecesAll el)) →
    readEach (readCode fuel buf) el.length off = some (el, off + codeSizes el)
  | [], _, _, _, _, _, _, _, _ => rfl
  | e :: el, hb, ha, hs, fuel, buf, off, hf, h => by
      simp only [builtAll, acceptedAll, Bool.and_eq_true] at hb ha
      rw [piecesAll] at hs h
      rw [image_append] at h
      have hsize : codeSizes (e :: el) = codeSize e + codeSizes el := by
        simp [codeSize, codeSizes, piecesAll]
      have r1 := readCode_at hb.1 ha.1 hs.left fuel buf off (by omega) h.left
      have r2 := readEach_at hb.2 ha.2 hs.right fuel buf _ (by omega) h.right
      rw [List.length_cons, readEach, r1]
      show (readEach _ _ (off + codeSize e)).map _ = _
      rw [codeSize, r2, hsize, ← Nat.add_assoc]
      rfl

end

/-! ## Transmission -/

/-- An expression that is sent, its length first, arrives: the length announces the bytes
that follow it, and these are read as the expression, all of them. -/
def Transmits (e : E) : Prop :=
  ∃ n ec code, codeLength e = some n ∧ writeCode e (Encode.init.word n) = some ec ∧
    ec.bytes = leBytes 8 n ++ code ∧ code.length = n ∧
    ∀ fuel, n ≤ fuel → readCode fuel code 0 = some (e, n)

/-- No string of the code reaches the end of the chunk it starts in. -/
def FitsChunks (e : E) : Prop := Fits (headerSize + 8) (pieces e)

theorem writeCode_bytes {e : E} (hb : built e = true) (ha : accepted e = true)
    (hf : FitsChunks e) (n : Nat) : ∃ ec, writeCode e (Encode.init.word n) = some ec ∧
      ec.bytes = leBytes 8 n ++ image (pieces e) := by
  have hoff : (Encode.init.word n).offset = headerSize + 8 := Encode.offset_put 8 n Encode.init
  rw [FitsChunks, ← hoff] at hf
  obtain ⟨ec, hw, hbytes⟩ := write_fits hf
  refine ⟨ec, by rw [writeCode_eq hb ha, hw], ?_⟩
  rw [hbytes, Encode.bytes_put]
  rfl

theorem transmits_iff {e : E} (hb : built e = true) (hf : FitsChunks e) :
    Transmits e ↔ accepted e = true ∧ small e = true := by
  constructor
  · rintro ⟨n, ec, code, hn, hw, hbytes, hlen, -⟩
    have ha := accepted_of_codeLength hb hn
    obtain ⟨ec', hw', hbytes'⟩ := writeCode_bytes hb ha hf n
    obtain ⟨c, hc, -, hiff⟩ := codeLength_counted hb ha hf.short
    rw [hw] at hw'
    cases hw'
    rw [hn] at hc
    cases hc
    have hcode : code = image (pieces e) := List.append_cancel_left (hbytes.symm.trans hbytes')
    exact ⟨ha, hiff.mp (by rw [← hlen, hcode]; rfl)⟩
  · rintro ⟨ha, hsmall⟩
    obtain ⟨c, hc, -, hiff⟩ := codeLength_counted hb ha hf.short
    have hsize : c = codeSize e := hiff.mpr hsmall
    obtain ⟨ec, hw, hbytes⟩ := writeCode_bytes hb ha hf c
    refine ⟨c, ec, image (pieces e), hc, hw, hbytes, hsize.symm, fun fuel hfuel => ?_⟩
    have h := readCode_at hb ha hf.short fuel (image (pieces e)) 0 (hsize ▸ hfuel)
      ⟨[], [], rfl, (List.append_nil _).symm⟩
    rw [h, hsize, Nat.zero_add]

/-- `f(1)`. -/
theorem transmits_call : Transmits (etfuncall (etsymbol "f" false)
    [etarg false (literal (.double 0x3ff0000000000000))]) := by
  refine (transmits_iff (by decide) ?_).mpr ⟨by decide, by decide⟩
  simp only [FitsChunks, pieces, piecesAll, piecesSymbol, List.cons_append, List.nil_append,
    Fits, Piece.Fits]
  decide

/-- `function() NULL`. -/
theorem not_transmits_function :
    built (etfunction [] etnull) = true ∧ ¬ Transmits (etfunction [] etnull) := by
  refine ⟨by decide, ?_⟩
  rintro ⟨n, ec, code, hn, -⟩
  rw [codeLength] at hn
  cases hn

end Ztsdb.Net
