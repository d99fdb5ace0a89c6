import Mathlib
import Ztsdb.Net.ReadStream

/-!
# What is in front of a reader

`readValue` is called with a place in a chunk as its buffer, or with the chunk and an
offset. It makes no difference: nothing that it does looks at what is in front of it.
-/

namespace Ztsdb.Net

open Ztsdb.Lib Ztsdb.Arr
open AppendMessage (getAlignedLength)

variable (front : List UInt8)

namespace Reader

/-- The reader in a chunk that has more in front. -/
def shift (r : Reader) : Reader := { r with off := front.length + r.off }

end Reader

def Turn.shift : Turn → Turn
  | .again r => .again (r.shift front)
  | .leaves r => .leaves (r.shift front)
  | .throws e => .throws e
  | .faults => .faults
  | .spins => .spins

def EltLoop.shift : EltLoop → EltLoop
  | .done off n a => .done (front.length + off) n a
  | .throws e => .throws e
  | .faults => .faults
  | .spins => .spins

variable {front} {c : List UInt8}

theorem slice_shift (off n : Nat) : slice (front.length + off) n (front ++ c) = slice off n c := by
  rw [slice, slice, List.drop_length_add_append]

theorem readWord_shift (k off : Nat) : readWord k (front ++ c) (front.length + off) =
    (readWord k c off).map fun x => (x.1, front.length + x.2) := by
  rw [readWord, readWord, List.length_append, slice_shift]
  by_cases h : off + k ≤ c.length
  · rw [if_pos h, if_pos (by omega), Option.map_some, Nat.add_assoc]
  · rw [if_neg h, if_neg (by omega)]
    rfl

theorem readInts_shift (m off : Nat) (v : List UInt64) :
    Reader.readInts (front ++ c) m (front.length + off) v =
      (Reader.readInts c m off v).map fun x => (x.1, front.length + x.2.1, x.2.2) := by
  induction m generalizing off v with
  | zero => rfl
  | succ m ih =>
      rw [Reader.readInts, Reader.readInts, List.length_append, readWord_shift]
      by_cases h : off < c.length
      · rw [if_pos h, if_pos (by omega)]
        cases readWord 8 c off with
        | none => rfl
        | some x => exact ih _ _
      · rw [if_neg h, if_neg (by omega)]
        rfl

theorem getEltFromBuffer_shift (t : EltType) (off : Nat) :
    getEltFromBuffer t (front ++ c) (front.length + off) =
      (getEltFromBuffer t c off).map fun x => (x.1, front.length + x.2) := by
  rw [getEltFromBuffer, getEltFromBuffer, readWord_shift]
  cases readWord 8 c off with
  | none => rfl
  | some x =>
      cases t with
      | string =>
          simp only [Option.map_some, List.length_append, slice_shift]
          by_cases h : x.2 + x.1 ≤ c.length
          · rw [if_pos h, if_pos (by omega), Option.map_some, Nat.add_assoc]
          · rw [if_neg h, if_neg (by omega)]
            rfl
      | _ => rfl

theorem copyElts_shift (exp col coloff off n : Nat) (a : VArray) :
    copyElts (front ++ c) exp col coloff (front.length + off) n a =
      (copyElts c exp col coloff off n a).shift front := by
  induction hk : exp - n using Nat.strong_induction_on generalizing col coloff off n a with
  | _ k ih =>
      subst hk
      rw [copyElts, copyElts]
      have hlen : (front ++ c).length - (front.length + off) = c.length - off := by
        rw [List.length_append]
        omega
      have hoff (m : Nat) : front.length + off + a.type.sizeof * m =
          front.length + (off + a.type.sizeof * m) := Nat.add_assoc ..
      simp only [hlen, hoff, slice_shift]
      by_cases h : n < exp ∧ off < c.length
      · rw [if_pos h, if_pos ⟨h.1, by rw [List.length_append]; omega⟩]
        cases a.v[col]? with
        | none => rfl
        | some column =>
            simp only
            generalize min (min (exp - n) ((c.length - off) / a.type.sizeof)) (a.nrows - coloff) = m
            by_cases h0 : m = 0
            · rw [if_pos h0, if_pos h0]
              rfl
            · rw [if_neg h0, if_neg h0]
              split
              · exact ih (exp - (n + m)) (by omega) _ _ _ _ _ rfl
              · exact ih (exp - (n + m)) (by omega) _ _ _ _ _ rfl
      · rw [if_neg h, if_neg fun h' => h ⟨h'.1, by have := h'.2; rw [List.length_append] at this; omega⟩]
        rfl

theorem readSlow_shift (exp col coloff off n : Nat) (a : VArray) :
    readSlow (front ++ c) exp col coloff (front.length + off) n a =
      (readSlow c exp col coloff off n a).shift front := by
  induction hk : exp - n using Nat.strong_induction_on generalizing col coloff off n a with
  | _ k ih =>
      subst hk
      rw [readSlow, readSlow]
      simp only [getEltFromBuffer_shift]
      by_cases h : n < exp ∧ off < c.length
      · rw [if_pos h, if_pos ⟨h.1, by rw [List.length_append]; omega⟩]
        cases getEltFromBuffer a.type c off with
        | none => rfl
        | some x =>
            simp only [Option.map_some]
            cases a.v[col]? with
            | none => rfl
            | some column =>
                simp only
                cases column.setv_checkbefore coloff x.1 with
                | none => rfl
                | some column' =>
                    simp only
                    split
                    · exact ih (exp - (n + 1)) (by omega) _ _ _ _ _ rfl
                    · exact ih (exp - (n + 1)) (by omega) _ _ _ _ _ rfl
      · rw [if_neg h, if_neg fun h' => h ⟨h'.1, by have := h'.2; rw [List.length_append] at this; omega⟩]
        rfl

theorem readElts_shift (exp off n : Nat) (a : VArray) :
    readEltsFromBuffer (front ++ c) exp (front.length + off) n a =
      (readEltsFromBuffer c exp off n a).shift front := by
  rw [readEltsFromBuffer, readEltsFromBuffer]
  simp only [copyElts_shift, readSlow_shift]
  split
  · rfl
  · split
    · rfl
    · split
      · rfl
      · rfl

namespace Reader

theorem endArray_shift (vs : ValState) (r : Reader) :
    (r.shift front).endArray vs = (r.endArray vs).shift front := by
  rw [endArray, endArray]
  split
  · rfl
  · rfl

theorem readArray_shift (vs : ValState) (a : VArray) (r : Reader) :
    (r.shift front).readArray (front ++ c) vs a = (r.readArray c vs a).shift front := by
  rw [readArray, readArray]
  split
  · rw [show (r.shift front).ss[(r.shift front).idx]? = r.ss[r.idx]? from rfl]
    cases r.ss[r.idx]? with
    | none => rfl
    | some child =>
        simp only
        cases convertFromList child.val with
        | none => rfl
        | some x =>
            obtain ⟨dim, names, ordered⟩ := x
            simp only
            cases (VArray.noinit a.type dim names).bind (VArray.setOrdered ordered) with
            | error e => rfl
            | ok a' => exact endArray_shift _ r
  · split
    · have hs := @readElts_shift front c vs.exp r.off vs.n a
      rw [show (r.shift front).off = front.length + r.off from rfl, hs]
      cases readEltsFromBuffer c vs.exp r.off vs.n a with
      | done off n a' =>
          simp only [EltLoop.shift, List.length_append, Nat.add_left_cancel_iff]
          split
          · rfl
          · exact endArray_shift _ { r with off }
      | throws e => rfl
      | faults => rfl
      | spins => rfl
    · rfl

theorem readChars_shift (vs : ValState) (join : List UInt8 → Val) (r : Reader) :
    (r.shift front).readChars (front ++ c) vs join = (r.readChars c vs join).shift front := by
  rw [readChars, readChars]
  have hlen : (if (r.shift front).off ≤ (front ++ c).length then
      min vs.exp ((front ++ c).length - (r.shift front).off) else vs.exp) =
        if r.off ≤ c.length then min vs.exp (c.length - r.off) else vs.exp := by
    rw [List.length_append, show (r.shift front).off = front.length + r.off from rfl]
    by_cases h : r.off ≤ c.length
    · rw [if_pos h, if_pos (Nat.add_le_add_left h _), Nat.add_sub_add_left]
    · rw [if_neg h, if_neg fun h' => h (Nat.le_of_add_le_add_left h')]
  generalize (if r.off ≤ c.length then min vs.exp (c.length - r.off) else vs.exp) = w at hlen
  simp only [hlen]
  rw [show (r.shift front).off = front.length + r.off from rfl, List.length_append, slice_shift]
  by_cases h : c.length < r.off + w
  · rw [if_pos h, if_pos (by omega)]
    rfl
  · rw [if_neg h, if_neg (by omega)]
    split
    · show Turn.again _ = Turn.again _
      congr 1
      simp only [put, complete, shift, Nat.add_assoc]
    · show Turn.again _ = Turn.again _
      congr 1
      simp only [put, shift, Nat.add_assoc]

theorem readList_shift (vs : ValState) (l : List (List UInt8 × Val)) (r : Reader) :
    (r.shift front).readList vs l = (r.readList vs l).shift front := by
  rw [readList, readList, show (r.shift front).ss[(r.shift front).idx]? = r.ss[r.idx]? from rfl]
  split
  · cases r.ss[r.idx]? with
    | none => rfl
    | some child =>
        obtain ⟨v, e, n, st⟩ := child
        have hend (x : List UInt8 × Val) : Turn.again
            (if vs.n + 1 = vs.exp then
              ((r.shift front).put { vs with val := .list (l ++ [x]), n := vs.n + 1 }).pop.complete
            else ((r.shift front).put { vs with val := .list (l ++ [x]), n := vs.n + 1 }).pop) =
              (Turn.again (if vs.n + 1 = vs.exp then
                (r.put { vs with val := .list (l ++ [x]), n := vs.n + 1 }).pop.complete
              else (r.put { vs with val := .list (l ++ [x]), n := vs.n + 1 }).pop)).shift front := by
          split
          · rfl
          · rfl
        cases v with
        | named name v =>
            simp only
            cases name.toChars with
            | none => rfl
            | some nm => exact hend (nm, v)
        | _ => exact hend _
  · split
    · rfl
    · rfl

theorem readZts_shift (vs : ValState) (a : VArray) (r : Reader) :
    (r.shift front).readZts vs a = (r.readZts vs a).shift front := by
  rw [readZts, readZts, show (r.shift front).ss[(r.shift front).idx]? = r.ss[r.idx]? from rfl]
  have hput (vs : ValState) : (r.shift front).put vs = (r.put vs).shift front := rfl
  split
  · rfl
  · split
    · split
      · rfl
      · rfl
    · rfl
  · rfl
  · split
    · split
      · rfl
      · rfl
    · rfl
  · rfl

theorem readNamed_shift (vs : ValState) (name v : Val) (r : Reader) :
    (r.shift front).readNamed vs name v = (r.readNamed vs name v).shift front := by
  rw [readNamed, readNamed, show (r.shift front).ss[(r.shift front).idx]? = r.ss[r.idx]? from rfl]
  split
  · rfl
  · split
    · rfl
    · rfl
    · rfl
    · rfl
    · rfl

theorem switch_shift (vs : ValState) (r : Reader) :
    (r.shift front).switch (front ++ c) vs = (r.switch c vs).shift front := by
  rw [switch, switch]
  cases vs.val with
  | std_int v =>
      have hs := @readInts_shift front c (vs.exp - vs.n) r.off v
      simp only
      rw [show (r.shift front).off = front.length + r.off from rfl, hs]
      cases readInts c (vs.exp - vs.n) r.off v with
      | none => rfl
      | some x =>
          obtain ⟨m, off, v'⟩ := x
          simp only [Option.map_some, Turn.shift]
          split
          · rfl
          · rfl
  | std_string s => exact readChars_shift _ _ r
  | error what => exact readChars_shift _ _ r
  | null => rfl
  | array a => exact readArray_shift _ _ r
  | list l => exact readList_shift _ _ r
  | zts idx a => exact readZts_shift _ _ r
  | named name v => exact readNamed_shift _ _ _ r

theorem body_shift (r : Reader) : (r.shift front).body (front ++ c) = (r.body c).shift front := by
  rw [body, body]
  show (if r.idx = 0 then _ else _) = _
  split
  · rfl
  · rw [show (r.shift front).ss[(r.shift front).idx - 1]? = r.ss[r.idx - 1]? from rfl]
    cases r.ss[r.idx - 1]? with
    | none => rfl
    | some vs =>
        have hoff : (r.shift front).off = (front ++ c).length ↔ r.off = c.length := by
          rw [List.length_append]
          exact Nat.add_left_cancel_iff
        simp only [hoff]
        show (if r.off = c.length ∧ vs.n ≠ vs.exp ∧ r.idx = r.ss.length then _ else _) = _
        split
        · rfl
        · exact switch_shift vs r

theorem turn_shift (r : Reader) : (r.shift front).turn (front ++ c) = (r.turn c).shift front := by
  rw [turn, turn]
  show (if r.idx = r.ss.length then _ else _) = _
  split
  · rw [show (r.shift front).off = front.length + r.off from rfl, readWord_shift]
    cases readWord 8 c r.off with
    | none => rfl
    | some x =>
        obtain ⟨w, off⟩ := x
        simp only [Option.map_some, readWord_shift]
        cases readWord 8 c off with
        | none => rfl
        | some y =>
            obtain ⟨vtlen, off'⟩ := y
            simp only [Option.map_some]
            cases ValType.ofNumber w with
            | none => rfl
            | some vt =>
                simp only
                cases make_value vt with
                | error e => rfl
                | ok v =>
                    have hb := @body_shift front c ⟨off', r.ss ++ [⟨v, vtlen, 0, 0⟩], r.idx + 1⟩
                    simp only
                    split
                    · rfl
                    · split
                      · exact hb
                      · split
                        · rfl
                        · exact hb
                        · rfl
  · exact body_shift r

theorem goes_shift (r : Reader) : (r.shift front).Goes (front ++ c) ↔ r.Goes c := by
  show front.length + r.off < (front ++ c).length ∨ 0 < r.idx ∧ r.idx < r.ss.length ↔ _
  rw [List.length_append, Nat.add_lt_add_iff_left]
  rfl

end Reader

def ReadEnd.shift (front : List UInt8) : ReadEnd → ReadEnd
  | .returns r => .returns (r.shift front)
  | .throws e => .throws e
  | .faults => .faults

/-- What is in front of a reader is not looked at. -/
theorem readValue_shift (k : Nat) (r : Reader) :
    readValue (front ++ c) k (r.shift front) = (readValue c k r).map (ReadEnd.shift front) := by
  induction k generalizing r with
  | zero => rfl
  | succ k ih =>
      rw [readValue, readValue, Reader.turn_shift]
      by_cases hg : r.Goes c
      · rw [if_pos hg, if_pos ((Reader.goes_shift r).mpr hg)]
        cases r.turn c with
        | again r' => exact ih r'
        | _ => rfl
      · rw [if_neg hg, if_neg fun h => hg ((Reader.goes_shift r).mp h)]
        rfl

end Ztsdb.Net
