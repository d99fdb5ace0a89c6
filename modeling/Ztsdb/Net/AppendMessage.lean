import Mathlib
import Ztsdb.Arr.Bind
import Ztsdb.Net.Frames

/-!
# Append messages

A client builds a message that a server appends to one of its series: a header with the
names that lead to the series, then two raw vectors, times and data. Each name has a byte
for its size before it and a zero after it; a word in front of them has their number in
its upper half and, in its lower half, where the vectors start.

The client writes the size as one byte, up to 255. The server reads it into an `auto`
from a `char`, which is signed on the machines the program is built for.
-/

namespace Ztsdb.Net

open Ztsdb.Lib Ztsdb.Arr

namespace AppendMessage

/-- A `std::string`. -/
abbrev Name := List UInt8

def MAXLEN : Nat := 255

def STRALIGN : Nat := 8

/-- `MsgType::APPEND_VECTOR`. -/
def APPEND_VECTOR : Nat := 3

/-! ## The writer -/

/-- `getAlignedLength(n, STRALIGN)`, an `unsigned`. -/
def getAlignedLength (n : Nat) : Nat :=
  (if n % STRALIGN = 0 then n else n + STRALIGN - n % STRALIGN) % 2 ^ 32

/-- The bytes of the names, one more for each size and one for each terminating 0. -/
def combinedLength (names : List Name) : Nat := names.foldl (fun s e => s + e.length + 2) 0

def getHeaderLength (names : List Name) : Nat :=
  16 + 8 + 8 + getAlignedLength (combinedLength names)

/-- `memcpy` into the buffer. -/
def put (off : Nat) (bs buf : List UInt8) : Outcome Exn (List UInt8) Unit :=
  if off + bs.length ≤ buf.length then
    .ok () (buf.take off ++ (bs ++ buf.drop (off + bs.length)))
  else .fault

/-- `memset` to 0. -/
def memset (off n : Nat) (buf : List UInt8) : Outcome Exn (List UInt8) Unit :=
  if off + n ≤ buf.length then put off (List.replicate n 0) buf else .fault

def writeHeaderHeader (buf : List UInt8) : Outcome Exn (List UInt8) Unit :=
  (put 0 (leBytes 8 MAGICNB) buf).bind fun _ buf =>
    (put 8 (leBytes 8 buf.length) buf).bind fun _ buf =>
      put 16 (leBytes 8 APPEND_VECTOR) buf

/-- The loop over the names; `none` where it returns -1. -/
def writeNames : List Name → Nat → List UInt8 → Outcome Exn (List UInt8) (Option Nat)
  | [], off, buf => .ok (some off) buf
  | n :: names, off, buf =>
    if MAXLEN < n.length then .ok none buf
    else
      (put off [UInt8.ofNat n.length] buf).bind fun _ buf =>
        (put (off + 1) n buf).bind fun _ buf =>
          (put (off + 1 + n.length) [0] buf).bind fun _ buf =>
            writeNames names (off + 1 + n.length + 1) buf

def writeLengthAndPadding (nameslen namesz_loc off : Nat) (buf : List UInt8) :
    Outcome Exn (List UInt8) Unit :=
  let paddingsz := wsub (getAlignedLength (off - namesz_loc)) (off - namesz_loc)
  (memset off paddingsz buf).bind fun _ buf =>
    let namessz := wrap (off - namesz_loc + paddingsz) ||| wrap (nameslen <<< 32)
    put namesz_loc (leBytes 8 namessz) buf

def writeHeader (names : List Name) (buf : List UInt8) : Outcome Exn (List UInt8) Int :=
  (writeHeaderHeader buf).bind fun _ buf =>
    (writeNames names 32 buf).bind fun r buf =>
      match r with
      | none => .ok (-1) buf
      | some off => (writeLengthAndPadding names.length 24 off buf).bind fun _ buf => .ok 0 buf

/-- The header of a `RawVector`. -/
def rawVector (T : Type) [Raw T] (n : Nat) (ordered : Bool) : List UInt8 :=
  leBytes 8 (Raw.typenumber T) ++ (leBytes 8 n ++ leBytes 8 (if ordered then 1 else 0))

/-- What both overloads do after their checks, with the header of each vector and what
`&v.front()` points to. The result of `writeHeader` is not looked at. -/
def compose (names : List Name) (idx : List dtime) (v : List Double) (idx_rv v_rv : List UInt8)
    (front : Outcome Exn (List UInt8) (List UInt8)) : Outcome Exn Unit (List UInt8) :=
  let headersz := getHeaderLength names
  let datasz := v.length * 8
  let idxdatasz := idx.length * 8
  let totalsz := headersz + sizeofRawVector + idxdatasz + sizeofRawVector + datasz
  let written := (writeHeader names (List.replicate totalsz 0)).bind fun _ buf =>
    (put headersz idx_rv buf).bind fun _ buf =>
      (put (headersz + sizeofRawVector) (Flat.encode idx) buf).bind fun _ buf =>
        (put (headersz + sizeofRawVector + idxdatasz) v_rv buf).bind fun _ buf =>
          match front with
          | .ok bs _ => put (headersz + sizeofRawVector + idxdatasz + sizeofRawVector) bs buf
          | .throw e _ => .throw e buf
          | .fault => .fault
  match written with
  | .ok _ buf => .ok buf ()
  | .throw e _ => .throw e ()
  | .fault => .fault

/-- `make_append_msg` of two `std::vector`s; `front` of an empty one has no meaning. -/
def make_append_msg (names : List Name) (idx : List dtime) (v : List Double) :
    Outcome Exn Unit (List UInt8) :=
  if idx = [] then .throw (.outOfRange "make_append_msg: idx has size 0") ()
  else if v.length % idx.length ≠ 0 then
    .throw (.outOfRange "make_append_msg: idx and v have incompatible lengths") ()
  else if adjacent dtime.less idx = false then
    .throw (.outOfRange "make_append_msg: idx must be sorted") ()
  else
    compose names idx v (rawVector dtime idx.length true) (rawVector Double v.length true)
      (if v = [] then .fault else .ok (Flat.encode v) [])

/-- `make_append_msg` of two `arr::Vector`s, which have a flag and a header of their own. -/
def make_append_msg_vector (names : List Name) (idx : Vector dtime) (v : Vector Double) :
    Outcome Exn Unit (List UInt8) :=
  if idx.v = [] then .throw (.outOfRange "make_append_msg: idx has size 0") ()
  else if v.size % idx.size ≠ 0 then
    .throw (.outOfRange "make_append_msg: idx and v have incompatible lengths") ()
  else if idx.ordered = false then
    .throw (.outOfRange "make_append_msg: idx must be sorted") ()
  else
    compose names idx.v v.v (rawVector dtime idx.size idx.ordered)
      (rawVector Double v.size v.ordered)
      (if v.v = [] then .throw (.rangeError "front on empty Vector") []
        else .ok (Flat.encode v.v) [])

/-! ## The reader -/

/-- What names are looked up in: a variable of the global environment, and the lists
among the values with their `operator[]`. -/
structure Lookup (V : Type) where
  find : Name → Outcome Exn Unit V
  list : V → Option (Name → Outcome Exn Unit V)

/-- A size byte and the string of so many bytes after it; a negative size is a range that
ends before it begins. Then the terminating 0 is skipped. -/
def readName (buf : List UInt8) (off : Nat) : Outcome Exn Unit (Name × Nat) :=
  match buf[off]? with
  | none => .fault
  | some sz =>
    if 128 ≤ sz.toNat then .throw (.lengthError "basic_string::_M_create") ()
    else if off + 1 + sz.toNat ≤ buf.length then
      .ok (slice (off + 1) sz.toNat buf, off + 1 + sz.toNat + 1) ()
    else .fault

variable {V : Type}

/-- The loop over the names after the first; `none` where it returns -1. -/
def readNames (r : Lookup V) (buf : List UInt8) : Nat → Nat → V → Outcome Exn Unit (Option V)
  | 0, _, val => .ok (some val) ()
  | k + 1, off, val =>
    match r.list val with
    | none => .ok none ()
    | some l => (readName buf off).bind fun s _ =>
        (l s.1).bind fun val _ => readNames r buf k s.2 val

/-- `readHeader`: the value that was found and the offset, `none` where it returns -1. -/
def readHeader (r : Lookup V) (buf : List UInt8) : Outcome Exn Unit (Option (V × Nat)) :=
  match readWord buf 0 with
  | none => .fault
  | some slen =>
    let ns := slen >>> 32
    (readName buf 8).bind fun s _ =>
      (r.find s.1).bind fun val _ =>
        (readNames r buf (ns - 1) s.2 val).bind fun val _ =>
          .ok (val.map fun val => (val, slen % 2 ^ 32)) ()

/-! ## What is meant

The value at the end of the names, whatever they are looked up in. -/

def descend (r : Lookup V) : List Name → V → Outcome Exn Unit (Option V)
  | [], val => .ok (some val) ()
  | n :: names, val =>
    match r.list val with
    | none => .ok none ()
    | some l => (l n).bind fun val _ => descend r names val

def lookup (r : Lookup V) : List Name → Outcome Exn Unit (Option V)
  | [] => .fault
  | n :: names => (r.find n).bind fun val _ => descend r names val

/-- A raw vector at the start of `mem`. -/
def Holds (T : Type) [Raw T] (mem : List UInt8) (ts : List T) : Prop :=
  readWord mem 0 = some (Raw.typenumber T) ∧ viewSize mem = some ts.length ∧
    Array.viewElts T mem ts.length = some ts

/-- `msg` is a frame; the reader finds in it exactly the names in their order, and its
offset is that of a vector of the times, which one of the data follows. -/
def Recovers (msg : List UInt8) (names : List Name) (idx : List dtime) (v : List Double) :
    Prop :=
  ∃ body off, msg = frame (leBytes 8 APPEND_VECTOR ++ body) ∧
    (∀ (V : Type) (r : Lookup V), readHeader r body =
      (lookup r names).bind fun val _ => .ok (val.map fun val => (val, off)) ()) ∧
    Holds dtime (body.drop off) idx ∧
    Holds Double (body.drop (off + (sizeofRawVector + idx.length * 8))) v

/-- The sizes are no negative `char`s, and the length of the names with the word before
them fits in an `unsigned` once it is aligned. -/
def Short (names : List Name) : Prop :=
  (∀ n ∈ names, n.length < 128) ∧ 8 + combinedLength names ≤ 2 ^ 32 - 8

/-! ## The written message -/

/-- The bytes of the names. -/
def nameBytes (n : Name) : List UInt8 := UInt8.ofNat n.length :: (n ++ [0])

def namesBytes (names : List Name) : List UInt8 := names.flatMap nameBytes

/-- A buffer of `total` bytes that begins with `front`, and is zero from there on. -/
def filled (front : List UInt8) (total : Nat) : List UInt8 :=
  front ++ List.replicate (total - front.length) 0

theorem length_filled {front : List UInt8} {total : Nat} (h : front.length ≤ total) :
    (filled front total).length = total := by
  rw [filled, List.length_append, List.length_replicate]
  omega

theorem put_mid {front old rest bs : List UInt8} {off : Nat} (hoff : off = front.length)
    (hlen : bs.length = old.length) :
    put off bs (front ++ (old ++ rest)) = .ok () (front ++ (bs ++ rest)) := by
  have hfit : off + bs.length ≤ (front ++ (old ++ rest)).length := by
    simp only [List.length_append]
    omega
  have hdrop : (front ++ (old ++ rest)).drop (off + bs.length) = rest := by
    rw [hoff, hlen, ← List.append_assoc, ← List.length_append, List.drop_left]
  rw [put, if_pos hfit, hdrop, hoff, List.take_left]

theorem put_filled {front bs : List UInt8} {off total : Nat} (hoff : off = front.length)
    (h : front.length + bs.length ≤ total) :
    put off bs (filled front total) = .ok () (filled (front ++ bs) total) := by
  have hsplit : total - front.length = bs.length + (total - (front ++ bs).length) := by
    rw [List.length_append]
    omega
  rw [filled, filled, hsplit, List.replicate_add, put_mid hoff List.length_replicate.symm,
    List.append_assoc]

theorem memset_filled {front : List UInt8} {off n total : Nat} (hoff : off = front.length)
    (h : front.length + n ≤ total) :
    memset off n (filled front total) =
      .ok () (filled (front ++ List.replicate n 0) total) := by
  rw [memset, if_pos (by rw [length_filled (by omega)]; omega),
    put_filled hoff (by rw [List.length_replicate]; exact h)]

theorem length_nameBytes (n : Name) : (nameBytes n).length = n.length + 2 := by
  rw [nameBytes, List.length_cons, List.length_append, List.length_singleton]

theorem combinedLength_eq (names : List Name) :
    combinedLength names = (namesBytes names).length := by
  have hfold : ∀ s, names.foldl (fun s e => s + e.length + 2) s =
      s + (namesBytes names).length := by
    induction names with
    | nil => exact fun s => rfl
    | cons n names ih =>
        intro s
        have hbytes : namesBytes (n :: names) = nameBytes n ++ namesBytes names := rfl
        rw [List.foldl_cons, ih, hbytes, List.length_append, length_nameBytes]
        omega
  rw [combinedLength, hfold, Nat.zero_add]

theorem le_combinedLength (names : List Name) : names.length ≤ combinedLength names := by
  rw [combinedLength_eq]
  induction names with
  | nil => exact Nat.le_refl _
  | cons n names ih =>
      rw [namesBytes, List.flatMap_cons, List.length_append, length_nameBytes,
        List.length_cons]
      rw [namesBytes] at ih
      omega

theorem writeNames_filled {names : List Name} {front : List UInt8} {off total : Nat}
    (hmax : ∀ n ∈ names, n.length ≤ MAXLEN) (hoff : off = front.length)
    (h : front.length + (namesBytes names).length ≤ total) :
    writeNames names off (filled front total) =
      .ok (some (off + (namesBytes names).length))
        (filled (front ++ namesBytes names) total) := by
  induction names generalizing front off with
  | nil =>
      rw [writeNames, namesBytes, List.flatMap_nil, List.length_nil, List.append_nil,
        Nat.add_zero]
  | cons n names ih =>
      have hn := hmax n List.mem_cons_self
      have hbytes : namesBytes (n :: names) = nameBytes n ++ namesBytes names := rfl
      rw [hbytes, List.length_append, length_nameBytes] at h
      rw [writeNames, if_neg (Nat.not_lt.mpr hn),
        put_filled hoff (by rw [List.length_singleton]; omega), Outcome.bind_ok,
        put_filled (by rw [List.length_append, List.length_singleton, hoff])
          (by rw [List.length_append, List.length_singleton]; omega), Outcome.bind_ok,
        put_filled
          (by rw [List.length_append, List.length_append, List.length_singleton, hoff])
          (by simp only [List.length_append, List.length_singleton]; omega),
        Outcome.bind_ok,
        ih (fun m hm => hmax m (List.mem_cons_of_mem n hm))
          (by simp only [List.length_append, List.length_singleton]; omega)
          (by simp only [List.length_append, List.length_singleton]; omega)]
      have hfront : front ++ [UInt8.ofNat n.length] ++ n ++ [0] ++ namesBytes names =
          front ++ namesBytes (n :: names) := by
        rw [hbytes, nameBytes]
        simp only [List.append_assoc, List.cons_append, List.nil_append]
      have hend : off + 1 + n.length + 1 + (namesBytes names).length =
          off + (namesBytes (n :: names)).length := by
        rw [hbytes, List.length_append, length_nameBytes]
        omega
      rw [hfront, hend]

/-- What the padding makes of a length. -/
def aligned (n : Nat) : Nat := if n % 8 = 0 then n else n + 8 - n % 8

theorem getAlignedLength_of_le {n : Nat} (h : n ≤ 2 ^ 32 - 8) :
    getAlignedLength n = aligned n := by
  rw [getAlignedLength, aligned, STRALIGN]
  exact Nat.mod_eq_of_lt (by split <;> omega)

theorem le_aligned (n : Nat) : n ≤ aligned n := by
  rw [aligned]
  split <;> omega

/-- The word before the names. -/
def namesWord (names : List Name) : Nat :=
  names.length * 2 ^ 32 + aligned (8 + combinedLength names)

/-- The message from the word on, up to the vectors. -/
def header (names : List Name) : List UInt8 :=
  leBytes 8 (namesWord names) ++ (namesBytes names ++
    List.replicate (aligned (8 + combinedLength names) - (8 + combinedLength names)) 0)

theorem length_header (names : List Name) :
    (header names).length = aligned (8 + combinedLength names) := by
  have hle := le_aligned (8 + combinedLength names)
  rw [header, List.length_append, List.length_append, List.length_replicate, length_leBytes,
    ← combinedLength_eq]
  omega

theorem getHeaderLength_eq {names : List Name} (h : 8 + combinedLength names ≤ 2 ^ 32 - 8) :
    getHeaderLength names = 24 + (header names).length := by
  rw [getHeaderLength, getAlignedLength_of_le (by omega), length_header, aligned, aligned]
  split <;> split <;> omega

/-- Magic number, length and type. -/
def preamble (total : Nat) : List UInt8 :=
  leBytes 8 MAGICNB ++ (leBytes 8 total ++ leBytes 8 APPEND_VECTOR)

theorem length_preamble (total : Nat) : (preamble total).length = 24 := by
  simp only [preamble, List.length_append, length_leBytes]

theorem writeHeaderHeader_filled {total : Nat} (h : 24 ≤ total) :
    writeHeaderHeader (List.replicate total 0) = .ok () (filled (preamble total) total) := by
  have hzero : List.replicate total (0 : UInt8) = filled [] total := by
    rw [filled, List.nil_append, List.length_nil, Nat.sub_zero]
  have hfirst : put 0 (leBytes 8 MAGICNB) (filled [] total) =
      .ok () (filled ([] ++ leBytes 8 MAGICNB) total) :=
    put_filled List.length_nil.symm (by rw [length_leBytes, List.length_nil]; omega)
  rw [writeHeaderHeader, hzero, hfirst, Outcome.bind_ok, List.nil_append,
    length_filled (by rw [length_leBytes]; omega),
    put_filled (length_leBytes 8 _).symm (by simp only [length_leBytes]; omega),
    Outcome.bind_ok,
    put_filled (by simp only [List.length_append, length_leBytes])
      (by simp only [List.length_append, length_leBytes]; omega),
    preamble, List.append_assoc]

theorem writeHeader_filled {names : List Name} {total : Nat}
    (hmax : ∀ n ∈ names, n.length ≤ MAXLEN) (hlen : 8 + combinedLength names ≤ 2 ^ 32 - 8)
    (h : 24 + (header names).length ≤ total) :
    writeHeader names (List.replicate total 0) =
      .ok 0 (filled (preamble total ++ header names) total) := by
  have hcount := le_combinedLength names
  have halign := le_aligned (8 + combinedLength names)
  have hbound : aligned (8 + combinedLength names) < 2 ^ 32 := by
    rw [aligned]
    split <;> omega
  have hh := length_header names
  have hp := length_preamble total
  have hnames := combinedLength_eq names
  have hskip : filled (preamble total) total = filled (preamble total ++ leBytes 8 0) total := by
    have hzero : leBytes 8 0 = List.replicate 8 (0 : UInt8) := rfl
    have hsplit : total - (preamble total).length =
        8 + (total - (preamble total ++ List.replicate 8 (0 : UInt8)).length) := by
      rw [List.length_append, List.length_replicate]
      omega
    rw [hzero, filled, filled, hsplit, List.replicate_add, List.append_assoc]
  have hoff : 32 = (preamble total ++ leBytes 8 0).length := by
    rw [List.length_append, hp, length_leBytes]
  rw [writeHeader, writeHeaderHeader_filled (by omega), Outcome.bind_ok, hskip,
    writeNames_filled hmax hoff (by omega), Outcome.bind_ok]
  have hm : 32 + (namesBytes names).length - 24 = 8 + combinedLength names := by omega
  have hpad : wsub (aligned (8 + combinedLength names)) (8 + combinedLength names) =
      aligned (8 + combinedLength names) - (8 + combinedLength names) :=
    wsub_of_le (by omega) halign
  have hword : wrap (8 + combinedLength names +
      (aligned (8 + combinedLength names) - (8 + combinedLength names))) |||
        wrap (names.length <<< 32) = namesWord names := by
    rw [Nat.add_sub_cancel' halign, wrap_of_lt (by omega), Nat.shiftLeft_eq,
      wrap_of_lt (by omega), Nat.or_comm, ← Nat.shiftLeft_eq,
      ← Nat.shiftLeft_add_eq_or_of_lt hbound, Nat.shiftLeft_eq, namesWord]
  simp only [writeLengthAndPadding, hm, getAlignedLength_of_le hlen, hpad]
  rw [memset_filled (by rw [List.length_append]; omega) (by rw [List.length_append]; omega),
    Outcome.bind_ok, hword, filled]
  simp only [List.append_assoc]
  rw [put_mid hp.symm (by rw [length_leBytes, length_leBytes]), Outcome.bind_ok, filled, header]
  simp only [List.append_assoc, List.length_append, length_leBytes]

/-- The message from the word on. -/
def body (names : List Name) (idx : List dtime) (idx_rv v_rv bs : List UInt8) : List UInt8 :=
  header names ++ (idx_rv ++ (Flat.encode idx ++ (v_rv ++ bs)))

theorem compose_of_le {names : List Name} {idx : List dtime} {v : List Double}
    {idx_rv v_rv bs rest : List UInt8} (hmax : ∀ n ∈ names, n.length ≤ MAXLEN)
    (hlen : 8 + combinedLength names ≤ 2 ^ 32 - 8) (hidx : idx_rv.length = sizeofRawVector)
    (hv : v_rv.length = sizeofRawVector) (hbs : bs.length = v.length * 8) :
    compose names idx v idx_rv v_rv (.ok bs rest) =
      .ok (frame (leBytes 8 APPEND_VECTOR ++ body names idx idx_rv v_rv bs)) () := by
  have h24 : sizeofRawVector = 24 := rfl
  have hw : Flat.width dtime = 8 := rfl
  have hh := getHeaderLength_eq hlen
  have henc := Flat.length_encode idx
  have hp := fun total => length_preamble total
  rw [hw] at henc
  rw [compose, hh]
  simp only
  rw [writeHeader_filled hmax hlen (by omega), Outcome.bind_ok,
    put_filled (by rw [List.length_append, hp])
      (by rw [List.length_append, hp]; omega), Outcome.bind_ok,
    put_filled (by simp only [List.length_append, hp]; omega)
      (by simp only [List.length_append, hp]; omega), Outcome.bind_ok,
    put_filled (by simp only [List.length_append, hp]; omega)
      (by simp only [List.length_append, hp]; omega), Outcome.bind_ok,
    put_filled (by simp only [List.length_append, hp]; omega)
      (by simp only [List.length_append, hp]; omega)]
  have hlast : ∀ (front : List UInt8) (total : Nat), front.length = total →
      filled front total = front := by
    intro front total hfront
    rw [filled, hfront, Nat.sub_self, List.replicate_zero, List.append_nil]
  rw [hlast _ _ (by simp only [List.length_append, hp]; omega)]
  have htotal : 24 + (header names).length + sizeofRawVector + idx.length * 8 +
      sizeofRawVector + v.length * 8 =
        (leBytes 8 APPEND_VECTOR ++ body names idx idx_rv v_rv bs).length + 16 := by
    simp only [body, List.length_append, length_leBytes]
    omega
  rw [htotal, frame, preamble, body]
  simp only [List.append_assoc]

/-! ## Reading it -/

theorem holds_rawVector {T : Type} [Raw T] {ts : List T} (ordered : Bool) (rest : List UInt8)
    (h : ts.length < 2 ^ 64) :
    Holds T (rawVector T ts.length ordered ++ (Flat.encode ts ++ rest)) ts := by
  let y : Vector T := { v := ts, ordered, capacity := 0, block := 0, alloc := none }
  have hy : rawVector T ts.length ordered ++ (Flat.encode ts ++ rest) = y.toBuffer ++ rest := by
    rw [Vector.toBuffer_append, rawVector]
    simp only [List.append_assoc]
    rfl
  rw [hy]
  refine ⟨Vector.readWord_toBuffer_typenumber y rest, Vector.readWord_toBuffer_size y rest h, ?_⟩
  have hfit : sizeofRawVector + ts.length * Flat.width T ≤ (y.toBuffer ++ rest).length := by
    rw [List.length_append, Vector.length_toBuffer]
    exact Nat.le_add_right _ _
  have hslice := Vector.slice_toBuffer y rest
  rw [Array.viewElts, if_pos hfit]
  refine congrArg some (Eq.trans (congrArg _ hslice) ?_)
  have hdec := Flat.decode_encode ts []
  rw [List.append_nil] at hdec
  exact hdec

theorem readName_sizeByte {front rest : List UInt8} {n : Name} {off : Nat}
    (hoff : off = front.length) :
    (front ++ (nameBytes n ++ rest))[off]? = some (UInt8.ofNat n.length) := by
  rw [hoff, List.getElem?_append_right (Nat.le_refl _), Nat.sub_self, nameBytes]
  rfl

theorem toNat_sizeByte {n : Name} (h : n.length ≤ MAXLEN) :
    (UInt8.ofNat n.length).toNat = n.length := by
  rw [UInt8.toNat_ofNat']
  rw [MAXLEN] at h
  omega

/-- A name whose size is no negative `char` is read back. -/
theorem readName_of_lt {front rest : List UInt8} {n : Name} {off : Nat}
    (hoff : off = front.length) (h : n.length < 128) :
    readName (front ++ (nameBytes n ++ rest)) off = .ok (n, off + (nameBytes n).length) () := by
  have hsz := toNat_sizeByte (show n.length ≤ MAXLEN by rw [MAXLEN]; omega)
  have hfit : off + 1 + n.length ≤ (front ++ (nameBytes n ++ rest)).length := by
    rw [List.length_append, List.length_append, length_nameBytes]
    omega
  have hslice : slice (off + 1) n.length (front ++ (nameBytes n ++ rest)) = n := by
    have hsplit : front ++ (nameBytes n ++ rest) =
        (front ++ [UInt8.ofNat n.length]) ++ (n ++ ([0] ++ rest)) := by
      rw [nameBytes]
      simp only [List.append_assoc, List.cons_append, List.nil_append]
    have hfront : off + 1 = (front ++ [UInt8.ofNat n.length]).length := by
      rw [List.length_append, List.length_singleton, hoff]
    rw [hsplit, hfront, slice_append_right _ _ _ rfl]
  simp only [readName, readName_sizeByte hoff, hsz]
  have hend : off + 1 + n.length + 1 = off + (n.length + 2) := by omega
  rw [if_neg (Nat.not_le.mpr h), if_pos hfit, hslice, length_nameBytes, hend]

/-- Any longer name is not. -/
theorem readName_of_ge {front rest : List UInt8} {n : Name} {off : Nat}
    (hoff : off = front.length) (hmax : n.length ≤ MAXLEN) (h : 128 ≤ n.length) :
    readName (front ++ (nameBytes n ++ rest)) off =
      .throw (.lengthError "basic_string::_M_create") () := by
  simp only [readName, readName_sizeByte hoff, toNat_sizeByte hmax]
  rw [if_pos h]

theorem readNames_of_lt (r : Lookup V) {names : List Name} {front rest : List UInt8}
    {off : Nat} (val : V) (hoff : off = front.length) (h : ∀ n ∈ names, n.length < 128) :
    readNames r (front ++ (namesBytes names ++ rest)) names.length off val =
      descend r names val := by
  induction names generalizing front off val with
  | nil => rfl
  | cons n names ih =>
      have hbytes : namesBytes (n :: names) ++ rest =
          nameBytes n ++ (namesBytes names ++ rest) := by
        rw [← List.append_assoc]
        rfl
      have hn := @readName_of_lt front (namesBytes names ++ rest) n off hoff
        (h n List.mem_cons_self)
      rw [List.length_cons, readNames, descend, hbytes]
      cases r.list val with
      | none => rfl
      | some l =>
          simp only [hn, Outcome.bind_ok]
          congr 1
          funext val u
          rw [← List.append_assoc]
          exact ih val (by rw [List.length_append, hoff])
            (fun m hm => h m (List.mem_cons_of_mem n hm))

/-- Lookups that keep the names they are asked for. -/
def recording : Lookup (List Name) where
  find s := .ok [s] ()
  list val := some fun s => .ok (val ++ [s]) ()

theorem descend_recording (names val : List Name) :
    descend recording names val = .ok (some (val ++ names)) () := by
  induction names generalizing val with
  | nil => rw [descend, List.append_nil]
  | cons n names ih =>
      show descend recording names (val ++ [n]) = _
      rw [ih, List.append_assoc, List.singleton_append]

theorem readNames_recording {names : List Name} {front rest : List UInt8} {off : Nat}
    (val : List Name) (hoff : off = front.length) (hmax : ∀ n ∈ names, n.length ≤ MAXLEN)
    (hlong : ∃ n ∈ names, 128 ≤ n.length) :
    readNames recording (front ++ (namesBytes names ++ rest)) names.length off val =
      .throw (.lengthError "basic_string::_M_create") () := by
  induction names generalizing front off val with
  | nil =>
      obtain ⟨n, hn, -⟩ := hlong
      cases hn
  | cons n names ih =>
      have hbytes : namesBytes (n :: names) ++ rest =
          nameBytes n ++ (namesBytes names ++ rest) := by
        rw [← List.append_assoc]
        rfl
      have hrec : recording.list val = some fun s => .ok (val ++ [s]) () := rfl
      rw [List.length_cons, readNames, hbytes, hrec]
      simp only
      rcases Nat.lt_or_ge n.length 128 with hlt | hge
      · rw [readName_of_lt hoff hlt, Outcome.bind_ok, Outcome.bind_ok, ← List.append_assoc]
        refine ih _ (by rw [List.length_append, hoff])
          (fun m hm => hmax m (List.mem_cons_of_mem n hm)) ?_
        obtain ⟨m, hm, hge⟩ := hlong
        rcases List.mem_cons.mp hm with rfl | hm
        · exact absurd hlt (Nat.not_lt.mpr hge)
        · exact ⟨m, hm, hge⟩
      · rw [readName_of_ge hoff (hmax n List.mem_cons_self) hge, Outcome.bind_throw]

theorem readWord_front {n : Nat} (rest : List UInt8) (hn : n < 2 ^ 64) :
    readWord (leBytes 8 n ++ rest) 0 = some n := by
  have h := @readWord_leBytes [] rest n 0 rfl hn
  rw [List.nil_append] at h
  exact h

theorem readHeader_of_word (r : Lookup V) {buf : List UInt8} {slen : Nat}
    (h : readWord buf 0 = some slen) :
    readHeader r buf =
      (readName buf 8).bind fun s _ =>
        (r.find s.1).bind fun val _ =>
          (readNames r buf (slen >>> 32 - 1) s.2 val).bind fun val _ =>
            .ok (val.map fun val => (val, slen % 2 ^ 32)) () := by
  rw [readHeader, h]

/-- The reader after the word and up to the offset it ends with. -/
theorem readHeader_header (r : Lookup V) {n : Name} {names : List Name} (rest : List UInt8)
    (hlen : 8 + combinedLength (n :: names) ≤ 2 ^ 32 - 8) :
    ∃ pad, header (n :: names) ++ rest =
        leBytes 8 (namesWord (n :: names)) ++ (nameBytes n ++ (namesBytes names ++ pad)) ∧
      readHeader r (header (n :: names) ++ rest) =
        (readName (header (n :: names) ++ rest) 8).bind fun s _ =>
          (r.find s.1).bind fun val _ =>
            (readNames r (header (n :: names) ++ rest) names.length s.2 val).bind fun val _ =>
              .ok (val.map fun val => (val, (header (n :: names)).length)) () := by
  have hcount := le_combinedLength (n :: names)
  have hbound : aligned (8 + combinedLength (n :: names)) < 2 ^ 32 := by
    rw [aligned]
    split <;> omega
  have heq : namesWord (n :: names) =
      (n :: names).length * 2 ^ 32 + aligned (8 + combinedLength (n :: names)) := by
    rw [namesWord]
  have hcons : (n :: names).length = names.length + 1 := rfl
  have hword : namesWord (n :: names) < 2 ^ 64 := by omega
  have hread : readWord (header (n :: names) ++ rest) 0 = some (namesWord (n :: names)) := by
    rw [header, List.append_assoc, readWord_front _ hword]
  have hshift := Nat.shiftRight_eq_div_pow (namesWord (n :: names)) 32
  have hns : namesWord (n :: names) >>> 32 - 1 = names.length := by omega
  have hh := length_header (n :: names)
  have hslen : namesWord (n :: names) % 2 ^ 32 = (header (n :: names)).length := by omega
  refine ⟨List.replicate (aligned (8 + combinedLength (n :: names)) -
    (8 + combinedLength (n :: names))) 0 ++ rest, ?_, ?_⟩
  · rw [header, namesBytes, List.flatMap_cons, namesBytes]
    simp only [List.append_assoc]
  · rw [readHeader_of_word r hread, hns, hslen]

theorem readHeader_of_lt (r : Lookup V) {names : List Name} (rest : List UInt8)
    (hne : names ≠ []) (h : Short names) :
    readHeader r (header names ++ rest) =
      (lookup r names).bind fun val _ =>
        .ok (val.map fun val => (val, (header names).length)) () := by
  obtain ⟨hlt, hlen⟩ := h
  cases names with
  | nil => exact absurd rfl hne
  | cons n names =>
      obtain ⟨pad, hbytes, hread⟩ := readHeader_header r rest hlen
      rw [hread, hbytes, readName_of_lt (length_leBytes 8 _).symm (hlt n List.mem_cons_self),
        Outcome.bind_ok, lookup]
      cases r.find n with
      | throw e u => simp only [Outcome.bind_throw]
      | fault => simp only [Outcome.bind_fault]
      | ok val u =>
          rw [Outcome.bind_ok, Outcome.bind_ok, ← List.append_assoc,
            readNames_of_lt r val (by rw [List.length_append, length_leBytes])
              (fun m hm => hlt m (List.mem_cons_of_mem n hm))]

/-- One longer name, and the names are not recovered. -/
theorem readHeader_of_ge {names : List Name} (rest : List UInt8)
    (hmax : ∀ n ∈ names, n.length ≤ MAXLEN) (hlong : ∃ n ∈ names, 128 ≤ n.length)
    (hlen : 8 + combinedLength names ≤ 2 ^ 32 - 8) :
    readHeader recording (header names ++ rest) =
      .throw (.lengthError "basic_string::_M_create") () := by
  cases names with
  | nil =>
      obtain ⟨n, hn, -⟩ := hlong
      cases hn
  | cons n names =>
      obtain ⟨pad, hbytes, hread⟩ := readHeader_header recording rest hlen
      rw [hread, hbytes]
      rcases Nat.lt_or_ge n.length 128 with hlt | hge
      · have hfind : recording.find n = .ok [n] () := rfl
        have hoff : 8 + (nameBytes n).length =
            (leBytes 8 (namesWord (n :: names)) ++ nameBytes n).length := by
          rw [List.length_append, length_leBytes]
        have hrest : ∃ m ∈ names, 128 ≤ m.length := by
          obtain ⟨m, hm, hge⟩ := hlong
          rcases List.mem_cons.mp hm with rfl | hm
          · exact absurd hlt (Nat.not_lt.mpr hge)
          · exact ⟨m, hm, hge⟩
        rw [readName_of_lt (length_leBytes 8 _).symm hlt, Outcome.bind_ok, hfind,
          Outcome.bind_ok, ← List.append_assoc,
          readNames_recording _ hoff (fun m hm => hmax m (List.mem_cons_of_mem n hm)) hrest,
          Outcome.bind_throw]
      · rw [readName_of_ge (length_leBytes 8 _).symm (hmax n List.mem_cons_self) hge,
          Outcome.bind_throw]

/-! ## Names too long for the padding -/

theorem length_of_put {off : Nat} {bs buf buf' : List UInt8} {u : Unit}
    (h : put off bs buf = .ok u buf') : buf'.length = buf.length := by
  unfold put at h
  split at h
  · next hfit =>
      cases h
      simp only [List.length_append, List.length_take, List.length_drop]
      omega
  · cases h

theorem length_of_writeHeaderHeader {buf buf' : List UInt8} {u : Unit}
    (h : writeHeaderHeader buf = .ok u buf') : buf'.length = buf.length := by
  rw [writeHeaderHeader, Outcome.bind_eq_ok] at h
  obtain ⟨_, b1, h1, h⟩ := h
  rw [Outcome.bind_eq_ok] at h
  obtain ⟨_, b2, h2, h⟩ := h
  rw [length_of_put h, length_of_put h2, length_of_put h1]

theorem writeNames_eq_ok {names : List Name} {off : Nat} {buf buf' : List UInt8}
    {r : Option Nat} (hmax : ∀ n ∈ names, n.length ≤ MAXLEN)
    (h : writeNames names off buf = .ok r buf') :
    r = some (off + (namesBytes names).length) ∧ buf'.length = buf.length := by
  induction names generalizing off buf with
  | nil =>
      cases h
      exact ⟨rfl, rfl⟩
  | cons n names ih =>
      have hn := hmax n List.mem_cons_self
      rw [writeNames, if_neg (Nat.not_lt.mpr hn), Outcome.bind_eq_ok] at h
      obtain ⟨_, b1, h1, h⟩ := h
      rw [Outcome.bind_eq_ok] at h
      obtain ⟨_, b2, h2, h⟩ := h
      rw [Outcome.bind_eq_ok] at h
      obtain ⟨_, b3, h3, h⟩ := h
      obtain ⟨hr, hb⟩ := ih (fun m hm => hmax m (List.mem_cons_of_mem n hm)) h
      have hbytes : namesBytes (n :: names) = nameBytes n ++ namesBytes names := rfl
      refine ⟨?_, by rw [hb, length_of_put h3, length_of_put h2, length_of_put h1]⟩
      rw [hr, hbytes, List.length_append, length_nameBytes]
      congr 1
      omega

/-- The length that is padded does not fit in an `unsigned`, the one it is padded to is
smaller, and the zeros would fill the address space. -/
theorem writeHeader_of_gt {names : List Name} {buf buf' : List UInt8} {i : Int}
    (hmax : ∀ n ∈ names, n.length ≤ MAXLEN) (hlen : 2 ^ 32 - 8 < 8 + combinedLength names)
    (hbuf : buf.length < 2 ^ 64) : writeHeader names buf ≠ .ok i buf' := by
  intro h
  rw [writeHeader, Outcome.bind_eq_ok] at h
  obtain ⟨_, b1, h1, h⟩ := h
  rw [Outcome.bind_eq_ok] at h
  obtain ⟨r, b2, h2, h⟩ := h
  obtain ⟨hr, hb⟩ := writeNames_eq_ok hmax h2
  have hb1 := length_of_writeHeaderHeader h1
  have hoff : 32 + (namesBytes names).length - 24 = 8 + combinedLength names := by
    rw [combinedLength_eq]
    omega
  have hsmall : getAlignedLength (8 + combinedLength names) < 8 + combinedLength names := by
    rw [getAlignedLength, STRALIGN]
    split <;> omega
  rw [hr] at h
  simp only [writeLengthAndPadding, hoff, Outcome.bind_eq_ok] at h
  obtain ⟨_, b3, ⟨_, b4, h4, -⟩, -⟩ := h
  unfold memset at h4
  split at h4
  · next hfit =>
      rw [wsub, wrap, ← combinedLength_eq] at hfit
      omega
  · cases h4

theorem compose_of_gt {names : List Name} {idx : List dtime} {v : List Double}
    {idx_rv v_rv msg : List UInt8} {front : Outcome Exn (List UInt8) (List UInt8)} {u : Unit}
    (hmax : ∀ n ∈ names, n.length ≤ MAXLEN) (hlen : 2 ^ 32 - 8 < 8 + combinedLength names)
    (hmem : idx.length * 8 + v.length * 8 < 2 ^ 63) :
    compose names idx v idx_rv v_rv front ≠ .ok msg u := by
  intro h
  unfold compose at h
  simp only at h
  split at h
  · next _ buf hwritten =>
      rw [Outcome.bind_eq_ok] at hwritten
      obtain ⟨i, b1, h1, -⟩ := hwritten
      refine writeHeader_of_gt hmax hlen ?_ h1
      have halign : getAlignedLength (combinedLength names) < 2 ^ 32 :=
        Nat.mod_lt _ (by norm_num)
      rw [List.length_replicate, getHeaderLength, sizeofRawVector]
      omega
  · cases h
  · cases h

/-- Data that are not there are not copied. -/
theorem compose_of_front {names : List Name} {idx : List dtime} {v : List Double}
    {idx_rv v_rv msg : List UInt8} {front : Outcome Exn (List UInt8) (List UInt8)} {u : Unit}
    (hfront : ∀ bs rest, front ≠ .ok bs rest) : compose names idx v idx_rv v_rv front ≠ .ok msg u := by
  intro h
  unfold compose at h
  simp only at h
  split at h
  · next _ buf hwritten =>
      rw [Outcome.bind_eq_ok] at hwritten
      obtain ⟨_, b1, _, hwritten⟩ := hwritten
      rw [Outcome.bind_eq_ok] at hwritten
      obtain ⟨_, b2, _, hwritten⟩ := hwritten
      rw [Outcome.bind_eq_ok] at hwritten
      obtain ⟨_, b3, _, hwritten⟩ := hwritten
      rw [Outcome.bind_eq_ok] at hwritten
      obtain ⟨_, b4, _, hwritten⟩ := hwritten
      cases front with
      | ok bs rest => exact hfront bs rest rfl
      | throw e rest => cases hwritten
      | fault => cases hwritten
  · cases h
  · cases h

/-! ## Messages read back -/

theorem drop_frame (p : List UInt8) : (frame p).drop 16 = p := by
  have hsplit : frame p = (leBytes 8 MAGICNB ++ leBytes 8 (p.length + 16)) ++ p := by
    rw [frame, List.append_assoc]
  have h16 : 16 = (leBytes 8 MAGICNB ++ leBytes 8 (p.length + 16)).length := by
    rw [List.length_append, length_leBytes, length_leBytes]
  rw [hsplit]
  exact List.drop_left' h16.symm

theorem length_rawVector (T : Type) [Raw T] (n : Nat) (ordered : Bool) :
    (rawVector T n ordered).length = sizeofRawVector := by
  simp only [rawVector, List.length_append, length_leBytes, sizeofRawVector]

/-- The two vectors of a message, whatever their flags. -/
theorem recovers_body {names : List Name} {idx : List dtime} {v : List Double} (o₁ o₂ : Bool)
    (hne : names ≠ []) (hshort : Short names) (hmem : idx.length * 8 + v.length * 8 < 2 ^ 63) :
    Recovers (frame (leBytes 8 APPEND_VECTOR ++ body names idx (rawVector dtime idx.length o₁)
      (rawVector Double v.length o₂) (Flat.encode v))) names idx v := by
  have hw : Flat.width dtime = 8 := rfl
  have henc := Flat.length_encode idx
  rw [hw] at henc
  refine ⟨_, (header names).length, rfl, fun V r => readHeader_of_lt r _ hne hshort, ?_, ?_⟩
  · rw [body, List.drop_left]
    exact holds_rawVector o₁ _ (by omega)
  · have hfront : (header names).length + (sizeofRawVector + idx.length * 8) =
        (header names ++ (rawVector dtime idx.length o₁ ++ Flat.encode idx)).length := by
      rw [List.length_append, List.length_append, length_rawVector, henc]
    have hbody : body names idx (rawVector dtime idx.length o₁) (rawVector Double v.length o₂)
        (Flat.encode v) = (header names ++ (rawVector dtime idx.length o₁ ++ Flat.encode idx)) ++
          (rawVector Double v.length o₂ ++ (Flat.encode v ++ [])) := by
      simp only [body, List.append_assoc, List.append_nil]
    rw [hfront, hbody, List.drop_left]
    exact holds_rawVector o₂ [] (by omega)

theorem compose_recovers_iff {names : List Name} {idx : List dtime} {v : List Double}
    (o₁ o₂ : Bool) (rest : List UInt8) (hne : names ≠ [])
    (hmax : ∀ n ∈ names, n.length ≤ MAXLEN)
    (hmem : idx.length * 8 + v.length * 8 < 2 ^ 63) :
    (∃ msg, compose names idx v (rawVector dtime idx.length o₁) (rawVector Double v.length o₂)
        (.ok (Flat.encode v) rest) = .ok msg () ∧ Recovers msg names idx v) ↔ Short names := by
  have hok := fun hlen => @compose_of_le names idx v _ _ _ rest hmax hlen
    (length_rawVector dtime idx.length o₁) (length_rawVector Double v.length o₂)
    (Flat.length_encode v)
  constructor
  · intro ⟨msg, hmsg, hrec⟩
    have hlen : 8 + combinedLength names ≤ 2 ^ 32 - 8 :=
      Nat.not_lt.mp fun hlt => compose_of_gt hmax hlt hmem hmsg
    refine ⟨fun n hn => Nat.not_le.mp fun hge => ?_, hlen⟩
    rw [hok hlen] at hmsg
    obtain ⟨b, off, hframe, hread, -⟩ := hrec
    have hb : leBytes 8 APPEND_VECTOR ++ b = leBytes 8 APPEND_VECTOR ++
        body names idx (rawVector dtime idx.length o₁) (rawVector Double v.length o₂)
          (Flat.encode v) := by
      rw [← drop_frame (leBytes 8 APPEND_VECTOR ++ b), ← hframe,
        ← drop_frame (leBytes 8 APPEND_VECTOR ++ body names idx _ _ _)]
      exact congrArg _ ((Outcome.ok.inj hmsg).1).symm
    have hthrow := hread _ recording
    rw [List.append_cancel_left hb, body, readHeader_of_ge _ hmax ⟨n, hn, hge⟩ hlen] at hthrow
    cases names with
    | nil => exact hne rfl
    | cons m names =>
        have hlook : lookup recording (m :: names) = .ok (some ([m] ++ names)) () :=
          descend_recording names [m]
        rw [hlook] at hthrow
        cases hthrow
  · intro hshort
    exact ⟨_, hok hshort.2, recovers_body o₁ o₂ hne hshort hmem⟩

theorem make_append_msg_eq {names : List Name} {idx : List dtime} {v : List Double}
    (hidx : idx ≠ []) (hchain : idx.IsChain (fun a b => dtime.less a b = true))
    (hdvd : idx.length ∣ v.length) :
    make_append_msg names idx v =
      compose names idx v (rawVector dtime idx.length true) (rawVector Double v.length true)
        (if v = [] then .fault else .ok (Flat.encode v) []) := by
  have hlen : ¬v.length % idx.length ≠ 0 := not_not.mpr (Nat.mod_eq_zero_of_dvd hdvd)
  have hord : ¬adjacent dtime.less idx = false := by
    rw [adjacent_iff.mpr hchain]
    nofun
  rw [make_append_msg, if_neg hidx, if_neg hlen, if_neg hord]

/-- A message of either overload leads the reader to its vectors exactly when the names
are short, the data are not empty, and, where the times have a flag, it says that they
are ascending. -/
theorem make_append_msg_recovers (names : List Name) (hne : names ≠ [])
    (hmax : ∀ n ∈ names, n.length ≤ MAXLEN) :
    (∀ (idx : List dtime) (v : List Double), idx ≠ [] →
      idx.IsChain (fun a b => dtime.less a b = true) → idx.length ∣ v.length →
      idx.length * 8 + v.length * 8 < 2 ^ 63 →
      ((∃ msg, make_append_msg names idx v = .ok msg () ∧ Recovers msg names idx v) ↔
        Short names ∧ v ≠ [])) ∧
    (∀ (idx : Vector dtime) (v : Vector Double), idx.v ≠ [] →
      idx.v.IsChain (fun a b => dtime.less a b = true) → idx.size ∣ v.size →
      idx.size * 8 + v.size * 8 < 2 ^ 63 →
      ((∃ msg, make_append_msg_vector names idx v = .ok msg () ∧
          Recovers msg names idx.v v.v) ↔
        Short names ∧ v.v ≠ [] ∧ idx.ordered = true)) := by
  refine ⟨fun idx v hidx hchain hdvd hmem => ?_, fun idx v hidx hchain hdvd hmem => ?_⟩
  · rw [make_append_msg_eq hidx hchain hdvd]
    by_cases hv : v = []
    · rw [if_pos hv]
      refine iff_of_false (fun ⟨msg, hmsg, _⟩ => ?_) fun h => h.2 hv
      exact compose_of_front (by nofun) hmsg
    · rw [if_neg hv, compose_recovers_iff true true [] hne hmax hmem]
      exact (and_iff_left hv).symm
  · have hlen : ¬v.size % idx.size ≠ 0 := not_not.mpr (Nat.mod_eq_zero_of_dvd hdvd)
    rw [make_append_msg_vector, if_neg hidx, if_neg hlen]
    by_cases hord : idx.ordered = false
    · rw [if_pos hord, hord]
      exact iff_of_false (fun ⟨msg, hmsg, _⟩ => nomatch hmsg) fun h => nomatch h.2.2
    rw [if_neg hord]
    by_cases hv : v.v = []
    · rw [if_pos hv]
      refine iff_of_false (fun ⟨msg, hmsg, _⟩ => ?_) fun h => h.2.1 hv
      exact compose_of_front (by nofun) hmsg
    · rw [if_neg hv]
      refine (compose_recovers_iff idx.ordered v.ordered [] hne hmax hmem).trans ?_
      exact (and_iff_left ⟨hv, Bool.not_eq_false _ ▸ hord⟩).symm

/-- One name, two times, four data. -/
theorem make_append_msg_recovers_one :
    ∃ msg, make_append_msg [[120]] [⟨1⟩, ⟨2⟩] [⟨0⟩, ⟨1⟩, ⟨2⟩, ⟨3⟩] = .ok msg () ∧
      Recovers msg [[120]] [⟨1⟩, ⟨2⟩] [⟨0⟩, ⟨1⟩, ⟨2⟩, ⟨3⟩] :=
  ((make_append_msg_recovers [[120]] (by nofun) (by decide)).1 [⟨1⟩, ⟨2⟩]
    [⟨0⟩, ⟨1⟩, ⟨2⟩, ⟨3⟩] (by nofun) (adjacent_iff.mp (by decide)) (by decide)
    (by decide)).mpr ⟨⟨by decide, by decide⟩, by nofun⟩

/-- The size 128 of a name is read as -128. -/
theorem not_recovers_longName :
    ¬∃ msg, make_append_msg [List.replicate 128 120] [⟨1⟩] [⟨0⟩] = .ok msg () ∧
      Recovers msg [List.replicate 128 120] [⟨1⟩] [⟨0⟩] := by
  intro h
  have hmax : ∀ n ∈ [List.replicate 128 (120 : UInt8)], n.length ≤ MAXLEN := by
    intro n hn
    rw [List.mem_singleton.mp hn, List.length_replicate, MAXLEN]
    norm_num
  have hmem : [(⟨1⟩ : dtime)].length * 8 + [(⟨0⟩ : Double)].length * 8 < 2 ^ 63 := by
    rw [List.length_singleton, List.length_singleton]
    norm_num
  have hidx : ([⟨1⟩] : List dtime) ≠ [] := by nofun
  have hv : ([⟨0⟩] : List Double) ≠ [] := by nofun
  rw [make_append_msg_eq hidx (adjacent_iff.mp (by decide)) (Nat.dvd_refl _), if_neg hv] at h
  have hshort := (compose_recovers_iff true true [] (by nofun) hmax hmem).mp h
  have hlt := hshort.1 _ (List.mem_singleton.mpr rfl)
  rw [List.length_replicate] at hlt
  omega

end AppendMessage

end Ztsdb.Net
