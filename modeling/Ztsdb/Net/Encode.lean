import Mathlib
import Ztsdb.Net.AppendMessage

/-!
# The outgoing stream

What is sent goes word by word into the buffer of an `Encode`; a word that does not fit
any more makes it send the buffer as a chunk, with a header of its own, and start the next
one. A string is a length, the characters and a padding, and its characters follow another
rule: they are copied if they leave at least a byte of the buffer, and otherwise the
buffer is sent as it was before them, without being emptied.

`Fits` says of a list of pieces that no string of it takes that second way. Then the
chunks carry the pieces one after the other, wherever they break.
-/

namespace Ztsdb.Net

open Ztsdb.Lib
open AppendMessage (getAlignedLength)

/-- The size of `Encode::buf`. -/
def CHUNKSZ : Nat := 131072

/-- `INIT_OFFSET`, and the type of the message with its two numbers. -/
def headerSize : Nat := 16 + 3 * 8

/-- The state of a stream: the payloads of the chunks it has sent, and of the one it is
filling. -/
structure Encode where
  sent : List (List UInt8)
  buf : List UInt8

namespace Encode

def offset (ec : Encode) : Nat := headerSize + ec.buf.length

/-- What a receiver has when the last chunk is sent too. -/
def bytes (ec : Encode) : List UInt8 := ec.sent.flatten ++ ec.buf

/-- A stream before its first word. -/
def init : Encode := ⟨[], []⟩

def flush (ec : Encode) : Encode := ⟨ec.sent ++ [ec.buf], []⟩

/-- `operator<<` of a type of `k` bytes. -/
def put (k n : Nat) (ec : Encode) : Encode :=
  let ec := if CHUNKSZ < ec.offset + k then ec.flush else ec
  { ec with buf := ec.buf ++ leBytes k n }

abbrev word (ec : Encode) (n : Nat) : Encode := ec.put 8 n

/-- The loop of `operator<<` of a string, with the bytes that remain to be copied. What is
copied starts at the front of the string in every round. There is no result when nothing
of the buffer is left, since the loop does not end then, and when the padding would be
written behind the buffer. -/
def copyString (t : List UInt8) (remaining : Nat) (ec : Encode) : Option Encode :=
  let nmax := CHUNKSZ - ec.offset
  if remaining = 0 then some ec
  else if remaining < nmax then
    let aligned := getAlignedLength remaining
    if CHUNKSZ < ec.offset + aligned then none
    else some { ec with buf := ec.buf ++ (t.take remaining ++ List.replicate (aligned - remaining) 0) }
  else if nmax = 0 then none
  else copyString t (remaining - nmax) { ec with sent := ec.sent ++ [ec.buf] }
termination_by remaining

/-- `operator<<` of a string. -/
def string (t : List UInt8) (ec : Encode) : Option Encode := copyString t t.length (ec.word t.length)

end Encode

/-- What is written in one go. -/
inductive Piece where
  | word (k n : Nat)
  | string (t : List UInt8)

namespace Piece

def write : Piece → Encode → Option Encode
  | word k n, ec => some (ec.put k n)
  | string t, ec => ec.string t

/-- The bytes that stand for a piece. -/
def image : Piece → List UInt8
  | word k n => leBytes k n
  | string t => leBytes 8 t.length ++ (t ++ List.replicate (getAlignedLength t.length - t.length) 0)

/-- Where a word of `k` bytes ends that is written at an offset. -/
def advance (off k : Nat) : Nat := if CHUNKSZ < off + k then headerSize + k else off + k

/-- Where a piece ends. -/
def next (off : Nat) : Piece → Nat
  | word k _ => advance off k
  | string t => advance off 8 + getAlignedLength t.length

/-- The characters of a string do not reach the end of the chunk. -/
def Fits (off : Nat) : Piece → Prop
  | word _ _ => True
  | string t => t = [] ∨ t.length < CHUNKSZ - advance off 8 ∧
      advance off 8 + getAlignedLength t.length ≤ CHUNKSZ

end Piece

/-- The pieces in a row, the first one written at an offset. -/
def Fits : Nat → List Piece → Prop
  | _, [] => True
  | off, p :: ps => p.Fits off ∧ Fits (p.next off) ps

def write : List Piece → Encode → Option Encode
  | [], ec => some ec
  | p :: ps, ec => (p.write ec).bind (write ps)

def image (ps : List Piece) : List UInt8 := ps.flatMap Piece.image

@[simp] theorem image_nil : image [] = [] := rfl

@[simp] theorem image_cons (p : Piece) (ps : List Piece) :
    image (p :: ps) = p.image ++ image ps := rfl

@[simp] theorem image_append (ps qs : List Piece) : image (ps ++ qs) = image ps ++ image qs :=
  List.flatMap_append

@[simp] theorem write_nil (ec : Encode) : write [] ec = some ec := rfl

@[simp] theorem write_cons (p : Piece) (ps : List Piece) (ec : Encode) :
    write (p :: ps) ec = (p.write ec).bind (write ps) := rfl

theorem write_append (ps qs : List Piece) (ec : Encode) :
    write (ps ++ qs) ec = (write ps ec).bind (write qs) := by
  induction ps generalizing ec with
  | nil => rfl
  | cons p ps ih =>
      rw [List.cons_append, write_cons, write_cons]
      cases p.write ec with
      | none => rfl
      | some ec => exact ih ec

namespace Encode

@[simp] theorem bytes_flush (ec : Encode) : ec.flush.bytes = ec.bytes := by
  simp [flush, bytes]

theorem bytes_put (k n : Nat) (ec : Encode) : (ec.put k n).bytes = ec.bytes ++ leBytes k n := by
  unfold put
  split
  · have h := bytes_flush ec
    simp only [bytes] at h ⊢
    rw [← List.append_assoc, h]
  · simp [bytes]

theorem offset_put (k n : Nat) (ec : Encode) :
    (ec.put k n).offset = Piece.advance ec.offset k := by
  unfold put Piece.advance
  split <;> simp [offset, flush, Nat.add_assoc]

/-- A string that fits is copied whole. -/
theorem string_fits {t : List UInt8} {ec : Encode} (h : (Piece.string t).Fits ec.offset) :
    ∃ ec', ec.string t = some ec' ∧ ec'.bytes = ec.bytes ++ (Piece.string t).image ∧
      ec'.offset = (Piece.string t).next ec.offset := by
  have hb := bytes_put 8 t.length ec
  have ho := offset_put 8 t.length ec
  rw [string, copyString]
  rcases h with rfl | ⟨hlt, hle⟩
  · refine ⟨_, if_pos rfl, ?_, ?_⟩
    · rw [hb]
      rfl
    · exact ho
  · rw [← ho] at hlt hle
    by_cases h0 : t.length = 0
    · refine ⟨_, if_pos h0, ?_, ?_⟩
      · rw [hb, List.length_eq_zero_iff.mp h0]
        rfl
      · rw [ho, Piece.next, h0]
        rfl
    · simp only [if_neg h0, if_pos hlt, if_neg (Nat.not_lt.mpr hle), List.take_length]
      have hal : t.length ≤ getAlignedLength t.length := by
        unfold getAlignedLength AppendMessage.STRALIGN
        simp only [CHUNKSZ] at hlt
        split <;> omega
      refine ⟨_, rfl, ?_, ?_⟩
      · show ((ec.word t.length).sent.flatten ++ ((ec.word t.length).buf ++ _)) = _
        rw [← List.append_assoc]
        show (ec.word t.length).bytes ++ _ = _
        rw [hb, List.append_assoc]
        rfl
      · rw [Piece.next, ← ho]
        simp only [word, offset, List.length_append, List.length_replicate] at hal ⊢
        omega

end Encode

/-- Pieces that fit arrive one after the other. -/
theorem write_fits {ps : List Piece} {ec : Encode} (h : Fits ec.offset ps) :
    ∃ ec', write ps ec = some ec' ∧ ec'.bytes = ec.bytes ++ image ps := by
  induction ps generalizing ec with
  | nil => exact ⟨ec, rfl, (List.append_nil _).symm⟩
  | cons p ps ih =>
      obtain ⟨hp, hps⟩ := h
      have hw : ∃ ec', p.write ec = some ec' ∧ ec'.bytes = ec.bytes ++ p.image ∧
          ec'.offset = p.next ec.offset := by
        cases p with
        | word k n => exact ⟨_, rfl, ec.bytes_put k n, ec.offset_put k n⟩
        | string t => exact Encode.string_fits hp
      obtain ⟨ec₁, hw₁, hb₁, ho₁⟩ := hw
      rw [← ho₁] at hps
      obtain ⟨ec₂, hw₂, hb₂⟩ := ih hps
      refine ⟨ec₂, by rw [write_cons, hw₁]; exact hw₂, ?_⟩
      rw [hb₂, hb₁, image_cons, List.append_assoc]

/-- A string that fits is shorter than a chunk. -/
def Short (ps : List Piece) : Prop := ∀ t, Piece.string t ∈ ps → t.length < CHUNKSZ

theorem Fits.short {off : Nat} {ps : List Piece} (h : Fits off ps) : Short ps := by
  induction ps generalizing off with
  | nil => exact fun t ht => absurd ht (List.not_mem_nil)
  | cons p ps ih =>
      intro t ht
      rcases List.mem_cons.mp ht with rfl | ht
      · rcases h.1 with rfl | ⟨hlt, _⟩
        · exact Nat.zero_lt_succ _
        · omega
      · exact ih h.2 t ht

/-! ## Reading -/

/-- A word of `k` bytes at an offset; there is none behind the end of the buffer. -/
def readWord (k : Nat) (buf : List UInt8) (off : Nat) : Option (Nat × Nat) :=
  if off + k ≤ buf.length then some (leNat (slice off k buf), off + k) else none

/-- The bytes at an offset of a buffer. -/
def At (buf : List UInt8) (off : Nat) (bs : List UInt8) : Prop :=
  ∃ front rest, front.length = off ∧ buf = front ++ (bs ++ rest)

theorem At.left {buf bs cs : List UInt8} {off : Nat} (h : At buf off (bs ++ cs)) : At buf off bs := by
  obtain ⟨front, rest, hf, rfl⟩ := h
  exact ⟨front, cs ++ rest, hf, by rw [List.append_assoc]⟩

theorem At.right {buf bs cs : List UInt8} {off : Nat} (h : At buf off (bs ++ cs)) :
    At buf (off + bs.length) cs := by
  obtain ⟨front, rest, hf, rfl⟩ := h
  exact ⟨front ++ bs, rest, by rw [List.length_append, hf], by simp⟩

theorem At.slice {buf bs : List UInt8} {off : Nat} (h : At buf off bs) :
    slice off bs.length buf = bs := by
  obtain ⟨front, rest, rfl, rfl⟩ := h
  exact slice_append_right front bs rest rfl

theorem At.length_le {buf bs : List UInt8} {off : Nat} (h : At buf off bs) :
    off + bs.length ≤ buf.length := by
  obtain ⟨front, rest, rfl, rfl⟩ := h
  simp only [List.length_append]
  omega

theorem readWord_at {buf : List UInt8} {off k n : Nat} (h : At buf off (leBytes k n))
    (hn : n < 256 ^ k) : readWord k buf off = some (n, off + k) := by
  have hle := h.length_le
  have hs := h.slice
  rw [length_leBytes] at hle hs
  rw [readWord, if_pos hle, hs, leNat_leBytes, Nat.mod_eq_of_lt hn]

end Ztsdb.Net
