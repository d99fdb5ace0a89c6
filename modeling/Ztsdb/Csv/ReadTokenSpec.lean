import Mathlib
import Ztsdb.Csv.ReadToken

/-!
# Tokens do not depend on the pieces

The tokens of a file are described on the file itself, and the reader is followed through it:
what is in its buffer from `te` on is what comes next, and what is in front of `te` is the
part of the token that has been passed. A refill keeps both, whatever the reads return, except
at a closing quote, which it drops.
-/

namespace Ztsdb.Csv

open Ztsdb.Lib Ztsdb.Arr

/-! ## The tokens of a file -/

/-- The rest of a token without quotes, behind `tok`: the token, its separator, and the file
from there on. -/
def plainToken (sep : UInt8) : List UInt8 → List UInt8 → List UInt8 × Int × List UInt8
  | tok, [] => (tok, 0, [])
  | tok, c :: s =>
    if c = sep ∨ c = newline then (tok, charVal c, c :: s) else plainToken sep (tok ++ [c]) s

/-- The rest of a quoted token, the file from its closing quote on; `none` when the quote is
not followed by a separator. -/
def quotedToken (sep : UInt8) : List UInt8 → List UInt8 → Option (List UInt8 × Int × List UInt8)
  | tok, [] => some (tok, if tok = [] then -1 else 0, [])
  | tok, c :: s =>
    if c = quote then
      match s with
      | [] => some (tok, if tok = [] then -1 else 0, [])
      | d :: _ => if d = sep ∨ d = newline then some (tok, charVal d, c :: s) else none
    else quotedToken sep (tok ++ [c]) s

theorem quotedToken_nil (sep : UInt8) (tok : List UInt8) :
    quotedToken sep tok [] = some (tok, if tok = [] then -1 else 0, []) := by
  rw [quotedToken.eq_def]

theorem quotedToken_inside {sep c : UInt8} (tok s : List UInt8) (h : c ≠ quote) :
    quotedToken sep tok (c :: s) = quotedToken sep (tok ++ [c]) s := by
  conv => lhs; rw [quotedToken.eq_def]
  simp only [if_neg h]

theorem quotedToken_end (sep : UInt8) (tok : List UInt8) :
    quotedToken sep tok [quote] = some (tok, if tok = [] then -1 else 0, []) := by
  rw [quotedToken.eq_def]
  simp only [if_true]

theorem quotedToken_quote (sep d : UInt8) (tok s : List UInt8) :
    quotedToken sep tok (quote :: d :: s) =
      if d = sep ∨ d = newline then some (tok, charVal d, quote :: d :: s) else none := by
  rw [quotedToken.eq_def]
  simp only [if_true]

/-- The token at the front of the file and whether it is quoted. -/
def nextToken (sep : UInt8) : List UInt8 → Option (List UInt8 × Int × List UInt8) × Bool
  | [] => (some ([], -1, []), false)
  | c :: s =>
    if c = quote then (if s = [] then some ([], -1, []) else quotedToken sep [] s, true)
    else (some (plainToken sep [] (c :: s)), false)

/-- The results of `n` calls on a file from the front of a token on. -/
def tokens (sep : UInt8) : Nat → List UInt8 → List Result
  | 0, _ => []
  | n + 1, s =>
    match nextToken sep s with
    | (none, _) => [.error (.outOfRange "quote does not terminate token")]
    | (some (tok, ret, rest), quoted) =>
      if ret < 0 then [.stop ret]
      else .token tok ret :: tokens sep n (rest.drop (if quoted then 2 else 1))

/-! ## The reader in its file -/

namespace Reader

/-- What is in the buffer from `te` on. -/
def window (r : Reader) : List UInt8 := (r.buf.drop r.te).take (r.len.toNat - r.te)

/-- The reader stands behind the bytes `pre` of a file that comes in the pieces `all`. -/
structure Tracks (all : List (List UInt8)) (r : Reader) (pre : List UInt8) : Prop where
  fresh : r.fresh = false
  begin_le : r.tb ≤ r.te
  lt_len : (r.te : Int) < r.len
  len_le : r.len ≤ r.buf.length
  read : ∃ done, all = done ++ r.pieces ∧ done ≠ [] ∧ pre ++ r.window = done.flatten

/-- The reader at the end of the file, with a token passed. -/
structure Ended (r : Reader) (tok : List UInt8) : Prop where
  fresh : r.fresh = false
  begin_eq : r.tb = 0
  end_eq : r.te = tok.length
  len_le : r.len ≤ 0
  pieces : r.pieces = []
  token : r.token = tok

variable {all : List (List UInt8)} {r : Reader} {pre : List UInt8} {sep : UInt8}

theorem window_eq (h : Tracks all r pre) : ∃ c w, r.window = c :: w ∧ r.buf[r.te]? = some c ∧
    r.len = r.te + 1 + w.length := by
  have hlen : r.window.length = r.len.toNat - r.te := by
    have := h.len_le
    rw [window, List.length_take, List.length_drop]
    omega
  have hlt := h.lt_len
  cases hw : r.window with
  | nil =>
      rw [hw] at hlen
      simp only [List.length_nil] at hlen
      omega
  | cons c w =>
      refine ⟨c, w, rfl, ?_, ?_⟩
      · have h0 : r.window[0]? = some c := by rw [hw]; rfl
        rw [window, List.getElem?_take_of_lt (by omega), List.getElem?_drop, Nat.add_zero] at h0
        exact h0
      · rw [hw, List.length_cons] at hlen
        omega

theorem length_token (hb : r.tb ≤ r.te) (hle : r.te ≤ r.buf.length) :
    r.token.length = r.te - r.tb := by
  rw [token, length_slice (by omega)]

theorem moved_spec (hb : r.tb ≤ r.te) (hle : r.te ≤ r.buf.length) :
    r.moved.length = r.buf.length ∧ r.moved.take r.token.length = r.token := by
  have hlen := length_token hb hle
  constructor
  · rw [moved, List.length_append, length_slice (by omega), List.length_drop]
    omega
  · rw [moved, ← token, List.take_left]

/-- The end of the file, where the token up to here is kept. -/
theorem refill_nil (hb : r.tb ≤ r.te) (hle : r.te ≤ r.buf.length)
    (hroom : r.token.length < r.buf.length) (hp : r.pieces = []) :
    ∃ r', r.refill = .ok false r' ∧ Ended r' r.token ∧ r'.quoted = r.quoted ∧
      r'.buf.length = r.buf.length ∧ r'.len = if r.token = [] then -1 else 0 := by
  have hlen := length_token hb hle
  obtain ⟨hmoved, htake⟩ := moved_spec hb hle
  have hempty : r.te - r.tb = 0 ↔ r.token = [] := by rw [← hlen, List.length_eq_zero_iff]
  refine ⟨{ r with
    buf := r.moved, tb := 0, te := r.te - r.tb, fresh := false, pieces := []
    len := if r.te - r.tb = 0 then -1 else 0 }, ?_, ?_, rfl, hmoved, by simp only [hempty]⟩
  · rw [refill, readMore, if_neg (by omega)]
    simp only [hp, Outcome.bind_ok]
    congr 1
    split <;> rfl
  · refine ⟨rfl, rfl, hlen.symm, by show (if _ then _ else _) ≤ (0 : Int); split <;> omega, rfl, ?_⟩
    show slice 0 (r.te - r.tb - 0) r.moved = r.token
    rw [slice, List.drop_zero, Nat.sub_zero, ← hlen, htake]

/-- A piece read behind the token up to here, which is kept. -/
theorem refill_cons {p : List UInt8} {ps : List (List UInt8)} (hb : r.tb ≤ r.te)
    (hle : r.te ≤ r.buf.length) (hroom : r.token.length < r.buf.length) (hp : r.pieces = p :: ps)
    (hne : p ≠ []) (hfits : r.token.length + p.length ≤ r.buf.length) :
    ∃ r', r.refill = .ok true r' ∧ r'.fresh = false ∧ r'.tb ≤ r'.te ∧
      (r'.te : Int) < r'.len ∧ r'.len ≤ r'.buf.length ∧ r'.token = r.token ∧ r'.window = p ∧
      r'.quoted = r.quoted ∧ r'.pieces = ps ∧ r'.buf.length = r.buf.length := by
  have hlen := length_token hb hle
  obtain ⟨hmoved, htake⟩ := moved_spec hb hle
  rw [hlen] at htake
  rw [hlen] at hfits
  have hpos : 0 < p.length := List.length_pos_iff.mpr hne
  have hbuf : (r.token ++ (p ++ r.moved.drop (r.te - r.tb + p.length))).length = r.buf.length := by
    rw [List.length_append, List.length_append, List.length_drop, hmoved]
    omega
  refine ⟨{ r with
    buf := r.token ++ (p ++ r.moved.drop (r.te - r.tb + p.length))
    tb := 0, te := r.te - r.tb, fresh := false, pieces := ps
    len := (r.te - r.tb + p.length : Nat) }, ?_, rfl, Nat.zero_le _, ?_, ?_, ?_, ?_, rfl, rfl, hbuf⟩
  · rw [refill, readMore, if_neg (by omega)]
    simp only [hp, hmoved]
    rw [if_pos ⟨hne, hfits⟩, Outcome.bind_ok, htake]
    congr 1
    simp only [decide_eq_true_eq]
    omega
  · show ((r.te - r.tb : Nat) : Int) < (r.te - r.tb + p.length : Nat)
    omega
  · show ((r.te - r.tb + p.length : Nat) : Int) ≤ ((_ : List UInt8).length : Nat)
    rw [hbuf]
    omega
  · show slice 0 (r.te - r.tb - 0) (r.token ++ _) = r.token
    rw [Nat.sub_zero, ← hlen, slice_append_left]
  · show List.take (((r.te - r.tb + p.length : Nat) : Int).toNat - (r.te - r.tb))
      (List.drop (r.te - r.tb) (r.token ++ (p ++ _))) = p
    rw [Int.toNat_natCast, Nat.add_sub_cancel_left, ← hlen, List.drop_left, List.take_left]

theorem mark_append (pre : List UInt8) (c : UInt8) :
    mark sep (pre ++ [c]) = (mark sep pre).step sep c := by
  rw [mark, mark, List.foldl_append, List.foldl_cons, List.foldl_nil]

theorem held_le_need (m : Mark) (last : Bool) : m.held ≤ m.need last := by
  rw [Mark.need]
  split <;> omega

/-- What `advance` leaves: the next byte, or the end of the file. -/
inductive Advanced (all : List (List UInt8)) (r : Reader) (pre tok : List UInt8) :
    Outcome Exn Reader Bool → Prop
  | more {r' : Reader} : Tracks all r' pre → r'.token = tok → r'.quoted = r.quoted →
      r'.buf.length = r.buf.length → Advanced all r pre tok (.ok true r')
  | ended {r' : Reader} : Ended r' tok → r'.quoted = r.quoted → r'.buf.length = r.buf.length →
      pre = all.flatten → r'.len = (if tok = [] then -1 else 0) →
      Advanced all r pre tok (.ok false r')

/-- A refill at the end of the pieces read so far, with less held than the buffer takes. -/
theorem refill_advanced {done : List (List UInt8)} (hb : r.tb ≤ r.te) (hle : r.te ≤ r.buf.length)
    (hroom : r.token.length < r.buf.length) (hclean : Clean sep r.buf.length all)
    (hall : all = done ++ r.pieces) (hpre : pre = done.flatten)
    (hheld : (mark sep pre).held = r.token.length) : Advanced all r pre r.token r.refill := by
  cases hp : r.pieces with
  | nil =>
      obtain ⟨r', href, hend, hq, hbuf, hlen⟩ := refill_nil hb hle hroom hp
      rw [href]
      refine .ended hend hq hbuf ?_ hlen
      rw [hpre, hall, hp, List.append_nil]
  | cons p ps =>
      obtain ⟨hne, hfits⟩ := hclean.fits done p ps (by rw [hall, hp])
      rw [← hpre, hheld] at hfits
      obtain ⟨r', href, hfresh, hb', hlt, hlen, htok, hwin, hq, hps, hbuf⟩ :=
        refill_cons hb hle hroom hp hne hfits
      rw [href]
      refine .more ⟨hfresh, hb', hlt, hlen, done ++ [p], ?_, by simp, ?_⟩ htok hq hbuf
      · rw [hall, hp, hps, List.append_assoc]
        rfl
      · rw [hwin, hpre, List.flatten_append, List.flatten_cons, List.flatten_nil,
          List.append_nil]

theorem advance_advanced (h : Tracks all r pre) (hclean : Clean sep r.buf.length all) {c : UInt8}
    {w : List UInt8} (hw : r.window = c :: w)
    (hheld : (mark sep (pre ++ [c])).held = r.token.length + 1) :
    Advanced all r (pre ++ [c]) (r.token ++ [c]) r.advance := by
  obtain ⟨c', w', hw', hc, hlen⟩ := window_eq h
  obtain ⟨rfl, rfl⟩ := List.cons.inj (hw.symm.trans hw')
  obtain ⟨done, hall, hne, hread⟩ := h.read
  have hb := h.begin_le
  have hle := h.len_le
  have htoklen := length_token hb (by omega : r.te ≤ r.buf.length)
  -- the byte passed is the token's next
  have htok : ({ r with te := r.te + 1 } : Reader).token = r.token ++ [c] := by
    have hat : (r.buf.drop r.tb)[r.te - r.tb]? = some c := by
      rw [List.getElem?_drop, Nat.add_sub_cancel' hb, hc]
    show slice r.tb (r.te + 1 - r.tb) r.buf = slice r.tb (r.te - r.tb) r.buf ++ [c]
    rw [slice, slice, Nat.succ_sub hb, List.take_add_one, hat]
    rfl
  rw [advance]
  simp only
  split
  · next hend =>
      have hnil : w = [] := by
        apply List.eq_nil_of_length_eq_zero
        push_cast at hend
        omega
      have hpre : pre ++ [c] = done.flatten := by rw [← hread, hw, hnil]
      have hroom := hclean.room done r.pieces hall hne
      rw [← hpre] at hroom
      have hneed := held_le_need (mark sep (pre ++ [c])) (decide (r.pieces = []))
      have hlen' : (r.token ++ [c]).length = r.token.length + 1 := by
        rw [List.length_append, List.length_singleton]
      have hadv := @refill_advanced all { r with te := r.te + 1 } (pre ++ [c]) sep done
        (by simp only; omega) (by simp only; omega)
        (by rw [htok, hlen']; simp only; omega) hclean hall hpre (by rw [htok, hlen', hheld])
      rw [htok] at hadv
      generalize refill { r with te := r.te + 1 } = o at hadv ⊢
      cases hadv with
      | more h1 h2 h3 h4 => exact .more h1 h2 h3 h4
      | ended h1 h2 h3 h4 h5 => exact .ended h1 h2 h3 h4 h5
  · next hin =>
      refine .more ⟨h.fresh, by simp only; omega, by simp only; omega, hle, done, hall, hne, ?_⟩
        htok rfl rfl
      have hwin : ({ r with te := r.te + 1 } : Reader).window = r.window.drop 1 := by
        show (r.buf.drop (r.te + 1)).take (r.len.toNat - (r.te + 1)) = _
        rw [window, List.drop_take, List.drop_drop, Nat.sub_sub]
      rw [hwin, hw, List.drop_one, List.tail_cons, List.append_assoc, ← hread, hw]
      rfl

/-! ## One token -/

/-- The mark in front of a byte of a token without quotes. -/
def PlainMark (m : Mark) (tok : List UInt8) : Prop :=
  m.place = .front ∧ tok = [] ∨ m.place = .plain ∧ m.held = tok.length

/-- The mark in front of a byte of a quoted token. -/
def QuotedMark (m : Mark) (tok : List UInt8) : Prop :=
  m.place = .opened ∧ tok = [] ∨ m.place = .inside ∧ m.held = tok.length

/-- The reader behind a token, with the rest of the file from its separator or its closing
quote on. -/
inductive After (sep : UInt8) (all : List (List UInt8)) (r : Reader) : List UInt8 → Prop
  | ended {tok : List UInt8} : Ended r tok → tok.length + 1 < r.buf.length → After sep all r []
  | plain {pre w rest : List UInt8} {c : UInt8} : r.quoted = false → Tracks all r pre →
      r.window = c :: w → pre ++ rest = all.flatten →
      mark sep (pre ++ [c]) = ⟨.front, r.token.length + 1⟩ → After sep all r rest
  | quoted {pre w rest : List UInt8} {d : UInt8} : r.quoted = true → Tracks all r pre →
      r.window = quote :: d :: w → pre ++ rest = all.flatten →
      mark sep (pre ++ [quote]) = ⟨.closed, r.token.length + 1⟩ → (d = sep ∨ d = newline) →
      After sep all r rest

/-- What the call of `scan` leaves that is to find `tok`, `ret` and `rest`. -/
inductive Found (sep : UInt8) (all : List (List UInt8)) (r : Reader) (tok : List UInt8) (ret : Int)
    (rest : List UInt8) : Outcome Exn Reader Int → Prop
  | ok {r' : Reader} : r'.token = tok → r'.quoted = r.quoted → r'.buf.length = r.buf.length →
      After sep all r' rest → Found sep all r tok ret rest (.ok ret r')

theorem Found.of_more {r' : Reader} {tok rest : List UInt8} {ret : Int} {o : Outcome Exn Reader Int}
    (h : Found sep all r' tok ret rest o) (hq : r'.quoted = r.quoted)
    (hbuf : r'.buf.length = r.buf.length) : Found sep all r tok ret rest o := by
  cases h with
  | ok h1 h2 h3 h4 => exact .ok h1 (h2.trans hq) (h3.trans hbuf) h4

/-- What is left of the file is in the buffer or still to be read. -/
theorem Tracks.rest_eq {s : List UInt8} (h : Tracks all r pre) (hs : pre ++ s = all.flatten) :
    s = r.window ++ r.pieces.flatten := by
  obtain ⟨done, hall, -, hread⟩ := h.read
  rw [hall, List.flatten_append, ← hread, List.append_assoc] at hs
  exact List.append_cancel_left hs

/-- The end of the file, with a token that is still open. -/
theorem Tracks.room_end (h : Tracks all r pre) (hclean : Clean sep r.buf.length all) :
    (mark sep all.flatten).need true < r.buf.length := by
  obtain ⟨done, hall, hne, -⟩ := h.read
  have hnil : all ≠ [] := by
    rw [hall]
    exact List.append_ne_nil_of_left_ne_nil hne _
  simpa using hclean.room all [] (List.append_nil all).symm hnil

theorem scan_plain {s : List UInt8} {fuel : Nat} (h : Tracks all r pre)
    (hclean : Clean sep r.buf.length all) (hq : r.quoted = false)
    (hm : PlainMark (mark sep pre) r.token)
    (hfirst : (mark sep pre).place = .front → s.head? ≠ some quote)
    (hs : pre ++ s = all.flatten) (hfuel : s.length < fuel) :
    Found sep all r (plainToken sep r.token s).1 (plainToken sep r.token s).2.1
      (plainToken sep r.token s).2.2 (r.scan sep fuel) := by
  induction s generalizing r pre fuel with
  | nil =>
      obtain ⟨c, w, hw, -, -⟩ := window_eq h
      have := h.rest_eq hs
      rw [hw] at this
      cases this
  | cons c s ih =>
      obtain ⟨c', w, hw, hc, -⟩ := window_eq h
      have hrest := h.rest_eq hs
      rw [hw, List.cons_append] at hrest
      obtain ⟨rfl, -⟩ := List.cons.inj hrest
      obtain ⟨fuel, rfl⟩ := Nat.exists_eq_succ_of_ne_zero (Nat.ne_zero_of_lt hfuel)
      rw [scan, hc]
      simp only [hq, Bool.false_eq_true, false_and, if_false, true_and]
      rw [plainToken]
      have hplace : (mark sep (pre ++ [c])) =
          if c = sep ∨ c = newline then ⟨.front, r.token.length + 1⟩
          else ⟨.plain, r.token.length + 1⟩ := by
        rw [mark_append, Mark.step]
        rcases hm with ⟨hfront, hnil⟩ | ⟨hplain, hheld⟩
        · have hnq : c ≠ quote := fun heq => hfirst hfront (by rw [heq]; rfl)
          simp only [hfront, if_neg hnq, hnil, List.length_nil]
        · simp only [hplain, hheld]
      split
      · next hsep =>
          rw [if_pos hsep] at hplace
          exact .ok rfl rfl rfl (.plain hq h hw hs hplace)
      · next hsep =>
          rw [if_neg hsep] at hplace
          have hadv := advance_advanced h hclean hw (by rw [hplace])
          generalize r.advance = o at hadv
          have hs' : pre ++ [c] ++ s = all.flatten := by rw [← hs, List.append_assoc]; rfl
          cases hadv with
          | @more r' htr htok hq' hbuf =>
              have hfound := ih htr (by rwa [hbuf]) (hq'.trans hq)
                (Or.inr ⟨by rw [hplace], by rw [hplace, htok, List.length_append]; rfl⟩)
                (fun hfront => by rw [hplace] at hfront; cases hfront) hs'
                (Nat.lt_of_succ_lt_succ hfuel)
              rw [htok] at hfound
              exact hfound.of_more hq' hbuf
          | @ended r' hend hq' hbuf hpre hlen =>
              have hnil : s = [] := by
                rw [hpre] at hs'
                exact List.append_right_eq_self.mp hs'
              have hroom := h.room_end hclean
              rw [← hpre, hplace] at hroom
              simp only [Mark.need, true_and, true_or, if_true] at hroom
              rw [hnil, plainToken]
              simp only [Outcome.bind_ok, Bool.false_eq_true, if_false]
              rw [hlen, if_neg (by simp)]
              refine .ok hend.token hq' hbuf (.ended hend ?_)
              rw [hbuf, List.length_append, List.length_singleton]
              exact hroom

/-- What is left when the token to be found may be an error. -/
def Scanned (sep : UInt8) (all : List (List UInt8)) (r : Reader)
    (next : Option (List UInt8 × Int × List UInt8)) (o : Outcome Exn Reader Int) : Prop :=
  match next with
  | some (tok, ret, rest) => Found sep all r tok ret rest o
  | none => ∃ r', o = .throw (.outOfRange "quote does not terminate token") r'

theorem Scanned.of_more {r' : Reader} {next : Option (List UInt8 × Int × List UInt8)}
    {o : Outcome Exn Reader Int} (h : Scanned sep all r' next o) (hq : r'.quoted = r.quoted)
    (hbuf : r'.buf.length = r.buf.length) : Scanned sep all r next o := by
  cases next with
  | none => exact h
  | some x => exact Found.of_more h hq hbuf

/-- At a closing quote the next byte decides, and no refill is made for it. -/
theorem close_scanned {s w : List UInt8} (h : Tracks all r pre)
    (hclean : Clean sep r.buf.length all) (hq : r.quoted = true) (hw : r.window = quote :: w)
    (hplace : mark sep (pre ++ [quote]) = ⟨.closed, r.token.length + 1⟩)
    (hs : pre ++ quote :: s = all.flatten) :
    Scanned sep all r (quotedToken sep r.token (quote :: s)) (r.close sep) := by
  obtain ⟨c', w', hw', -, hlen⟩ := window_eq h
  obtain ⟨rfl, rfl⟩ := List.cons.inj (hw.symm.trans hw')
  have hrest := h.rest_eq hs
  rw [hw, List.cons_append] at hrest
  have hswin : s = w ++ r.pieces.flatten := (List.cons.inj hrest).2
  have hb := h.begin_le
  have hle := h.len_le
  obtain ⟨done, hall, hne, hread⟩ := h.read
  rw [close]
  cases w with
  | nil =>
      have hpre : pre ++ [quote] = done.flatten := by rw [← hread, hw]
      have hnone : r.pieces = [] := by
        by_contra hmore
        have := hclean.closed done r.pieces hall hmore
        rw [← hpre, hplace] at this
        exact this rfl
      have hroom := hclean.room done r.pieces hall hne
      rw [← hpre, hplace, hnone] at hroom
      simp only [Mark.need, decide_true, reduceCtorEq, or_self, and_false, if_false] at hroom
      obtain ⟨r', href, hend, hq', hbuf, hlen'⟩ := refill_nil hb (by omega) (by omega) hnone
      have hnil : s = [] := by rw [hswin, hnone]; rfl
      have hend' : r.len ≤ r.te + 1 := by
        rw [hlen, List.length_nil]
        omega
      rw [hnil, quotedToken_end, if_pos hend', href]
      simp only [Outcome.bind_ok, Bool.false_eq_true, if_false]
      rw [hlen']
      exact .ok hend.token hq' hbuf (.ended hend (by rw [hbuf]; exact hroom))
  | cons d w =>
      rw [List.length_cons] at hlen
      have hd : r.buf[r.te + 1]? = some d := by
        have h1 : r.window[1]? = some d := by rw [hw]; rfl
        rwa [window, List.getElem?_take_of_lt (by omega), List.getElem?_drop] at h1
      have hin : ¬r.len ≤ r.te + 1 := by
        rw [hlen]
        push_cast
        omega
      rw [if_neg hin, hswin, List.cons_append, quotedToken_quote]
      simp only [Outcome.bind_ok, if_true, hd]
      split
      · next hsep =>
          have hs' : pre ++ quote :: d :: (w ++ r.pieces.flatten) = all.flatten := by
            rw [← hs, hswin]
            rfl
          exact .ok rfl rfl rfl (.quoted hq h hw hs' hplace hsep)
      · exact ⟨r, rfl⟩

theorem scan_quoted {s : List UInt8} {fuel : Nat} (h : Tracks all r pre)
    (hclean : Clean sep r.buf.length all) (hq : r.quoted = true)
    (hm : QuotedMark (mark sep pre) r.token) (hs : pre ++ s = all.flatten)
    (hfuel : s.length < fuel) :
    Scanned sep all r (quotedToken sep r.token s) (r.scan sep fuel) := by
  induction s generalizing r pre fuel with
  | nil =>
      obtain ⟨c, w, hw, -, -⟩ := window_eq h
      have := h.rest_eq hs
      rw [hw] at this
      cases this
  | cons c s ih =>
      obtain ⟨c', w, hw, hc, -⟩ := window_eq h
      have hrest := h.rest_eq hs
      rw [hw, List.cons_append] at hrest
      obtain ⟨rfl, -⟩ := List.cons.inj hrest
      obtain ⟨fuel, rfl⟩ := Nat.exists_eq_succ_of_ne_zero (Nat.ne_zero_of_lt hfuel)
      have hplace : mark sep (pre ++ [c]) =
          if c = quote then ⟨.closed, r.token.length + 1⟩ else ⟨.inside, r.token.length + 1⟩ := by
        rw [mark_append, Mark.step]
        rcases hm with ⟨hopened, hnil⟩ | ⟨hinside, hheld⟩
        · simp only [hopened, hnil, List.length_nil]
        · simp only [hinside, hheld]
      rw [scan, hc]
      simp only [hq, true_and, Bool.true_eq_false, false_and, if_false]
      split
      · next hquote =>
          subst hquote
          rw [if_pos rfl] at hplace
          exact close_scanned h hclean hq hw hplace hs
      · next hquote =>
          rw [if_neg hquote] at hplace
          rw [quotedToken_inside _ _ hquote]
          have hadv := advance_advanced h hclean hw (by rw [hplace])
          generalize r.advance = o at hadv
          have hs' : pre ++ [c] ++ s = all.flatten := by rw [← hs, List.append_assoc]; rfl
          cases hadv with
          | @more r' htr htok hq' hbuf =>
              have hfound := ih htr (by rwa [hbuf]) (hq'.trans hq)
                (Or.inr ⟨by rw [hplace], by rw [hplace, htok, List.length_append]; rfl⟩) hs'
                (Nat.lt_of_succ_lt_succ hfuel)
              rw [htok] at hfound
              exact hfound.of_more hq' hbuf
          | @ended r' hend hq' hbuf hpre hlen =>
              have hnil : s = [] := by
                rw [hpre] at hs'
                exact List.append_right_eq_self.mp hs'
              have hroom := h.room_end hclean
              rw [← hpre, hplace] at hroom
              simp only [Mark.need, true_and, or_true, if_true] at hroom
              rw [hnil, quotedToken_nil]
              simp only [Outcome.bind_ok, Bool.false_eq_true, if_false]
              rw [hlen]
              refine .ok hend.token hq' hbuf (.ended hend ?_)
              rw [hbuf, List.length_append, List.length_singleton]
              exact hroom

/-! ## Calls -/

/-- The reader behind the separator, in front of `rest`; or at the end of the file. -/
inductive Skipped (sep : UInt8) (all : List (List UInt8)) (r : Reader) (rest : List UInt8) :
    Outcome Exn Reader Bool → Prop
  | more {r' : Reader} {pre : List UInt8} : Tracks all r' pre → pre ++ rest = all.flatten →
      mark sep pre = ⟨.front, r'.token.length⟩ → r'.buf.length = r.buf.length →
      Skipped sep all r rest (.ok true r')
  | ended {r' : Reader} : rest = [] → Skipped sep all r rest (.ok false r')

theorem advance_ended {tok : List UInt8} (h : Ended r tok) (hroom : tok.length + 1 < r.buf.length) :
    ∃ r', r.advance = .ok false r' := by
  have hlen := h.len_le
  have hb := h.begin_eq
  have he := h.end_eq
  have htok := @length_token { r with te := r.te + 1 } (by simp only; omega) (by simp only; omega)
  obtain ⟨r', href, hend, -⟩ := @refill_nil { r with te := r.te + 1 } (by simp only; omega)
    (by simp only; omega) (by rw [htok]; simp only; omega) h.pieces
  refine ⟨r', ?_⟩
  rw [advance]
  simp only
  rw [if_pos (by omega), href]

/-- Behind a token the next call goes to the front of the next one. -/
theorem skip_after {rest : List UInt8} (h : After sep all r rest)
    (hclean : Clean sep r.buf.length all) :
    Skipped sep all r (rest.drop (if r.quoted then 2 else 1)) r.skip := by
  cases h with
  | ended hend hroom =>
      obtain ⟨r', hadv⟩ := advance_ended hend hroom
      rw [skip, hend.fresh, hadv]
      cases r.quoted with
      | true => exact .ended rfl
      | false => exact .ended rfl
  | @plain pre w _ c hq htr hw hs hmark =>
      have hrest := htr.rest_eq hs
      rw [hw, List.cons_append] at hrest
      rw [skip, htr.fresh, hq, hrest]
      simp only [Bool.false_eq_true, if_false, List.drop_one, List.tail_cons]
      have hadv := advance_advanced htr hclean hw (by rw [hmark])
      generalize r.advance = o at hadv
      have hs' : pre ++ [c] ++ (w ++ r.pieces.flatten) = all.flatten := by
        rw [← hs, hrest, List.append_assoc]
        rfl
      cases hadv with
      | more htr' htok hq' hbuf =>
          exact .more htr' hs' (by rw [hmark, htok, List.length_append]; rfl) hbuf
      | ended hend hq' hbuf hpre hlen =>
          rw [hpre] at hs'
          exact .ended (List.append_right_eq_self.mp hs')
  | @quoted pre w _ d hq htr hw hs hmark hd =>
      have hrest := htr.rest_eq hs
      rw [hw, List.cons_append, List.cons_append] at hrest
      rw [skip, htr.fresh, hq, hrest]
      simp only [Bool.false_eq_true, if_false, if_true, List.drop_succ_cons, List.drop_zero]
      have hadv := advance_advanced htr hclean hw (by rw [hmark])
      generalize r.advance = o at hadv
      have hs' : pre ++ [quote] ++ d :: (w ++ r.pieces.flatten) = all.flatten := by
        rw [← hs, hrest, List.append_assoc]
        rfl
      cases hadv with
      | ended hend hq' hbuf hpre hlen =>
          rw [hpre] at hs'
          cases List.append_right_eq_self.mp hs'
      | @more r₁ htr₁ htok₁ hq₁ hbuf₁ =>
          obtain ⟨d', w', hw', -, -⟩ := window_eq htr₁
          have hrest₁ := htr₁.rest_eq hs'
          rw [hw', List.cons_append] at hrest₁
          obtain ⟨rfl, -⟩ := List.cons.inj hrest₁
          have hmark' : mark sep (pre ++ [quote] ++ [d]) = ⟨.front, r₁.token.length + 1⟩ := by
            rw [mark_append, hmark, Mark.step]
            simp only [if_pos hd, htok₁, List.length_append, List.length_singleton]
          simp only [Outcome.bind_ok, if_true]
          have hadv₂ := advance_advanced htr₁ (by rwa [hbuf₁]) hw' (by rw [hmark'])
          generalize r₁.advance = o at hadv₂
          have hs₂ : pre ++ [quote] ++ [d] ++ (w ++ r.pieces.flatten) = all.flatten := by
            rw [← hs', List.append_assoc _ [d]]
            rfl
          cases hadv₂ with
          | more htr₂ htok₂ hq₂ hbuf₂ =>
              exact .more htr₂ hs₂ (by rw [hmark', htok₂, List.length_append]; rfl)
                (hbuf₂.trans hbuf₁)
          | ended hend hq' hbuf hpre hlen =>
              rw [hpre] at hs₂
              exact .ended (List.append_right_eq_self.mp hs₂)

theorem skip_start {buf : List UInt8} {pieces : List (List UInt8)}
    (hclean : Clean sep buf.length pieces) :
    Skipped sep pieces (start buf pieces) pieces.flatten (start buf pieces).skip := by
  have hadv := @refill_advanced pieces (start buf pieces) [] sep [] le_rfl (Nat.zero_le _)
    hclean.pos hclean rfl rfl rfl
  have htok : (start buf pieces).token = [] := rfl
  rw [htok] at hadv
  show Skipped _ _ _ _ (start buf pieces).refill
  generalize (start buf pieces).refill = o at hadv
  cases hadv with
  | more htr htok hq hbuf => exact .more htr rfl (by rw [htok]; rfl) hbuf
  | ended hend hq hbuf hpre hlen => exact .ended hpre.symm

/-- What a call leaves that is to find the token `next`. -/
def Read (sep : UInt8) (all : List (List UInt8)) (r : Reader)
    (next : Option (List UInt8 × Int × List UInt8) × Bool) (o : Outcome Exn Reader Int) : Prop :=
  match next.1 with
  | some (tok, ret, rest) => ∃ r', o = .ok ret r' ∧ (0 ≤ ret →
      r'.token = tok ∧ r'.quoted = next.2 ∧ r'.buf.length = r.buf.length ∧ After sep all r' rest)
  | none => ∃ r', o = .throw (.outOfRange "quote does not terminate token") r'

theorem Found.read {r' : Reader} {tok rest : List UInt8} {ret : Int}
    {o : Outcome Exn Reader Int} {quoted : Bool} (h : Found sep all r' tok ret rest o)
    (hq : r'.quoted = quoted) (hbuf : r'.buf.length = r.buf.length) :
    Read sep all r (some (tok, ret, rest), quoted) o := by
  cases h with
  | @ok r₁ h1 h2 h3 h4 => exact ⟨r₁, rfl, fun _ => ⟨h1, h2.trans hq, h3.trans hbuf, h4⟩⟩

theorem Scanned.read {r' : Reader} {next : Option (List UInt8 × Int × List UInt8)}
    {o : Outcome Exn Reader Int} {quoted : Bool} (h : Scanned sep all r' next o)
    (hq : r'.quoted = quoted) (hbuf : r'.buf.length = r.buf.length) :
    Read sep all r (next, quoted) o := by
  cases next with
  | none => exact h
  | some x => exact Found.read h hq hbuf

/-- The token begins at the next byte. -/
theorem Tracks.begun (h : Tracks all r pre) : Tracks all { r with tb := r.te } pre :=
  ⟨h.fresh, le_rfl, h.lt_len, h.len_le, h.read⟩

theorem token_begun : ({ r with tb := r.te } : Reader).token = [] := by
  show slice r.te (r.te - r.te) r.buf = []
  rw [Nat.sub_self, slice, List.take_zero]

theorem Tracks.remaining_eq {s : List UInt8} (h : Tracks all r pre) (hs : pre ++ s = all.flatten) :
    s.length = r.remaining := by
  obtain ⟨c, w, hw, -, hlen⟩ := window_eq h
  rw [h.rest_eq hs, hw, List.length_append, List.length_cons, remaining, hlen]
  omega

theorem readToken_read {rest : List UInt8} (h : Skipped sep all r rest r.skip)
    (hclean : Clean sep r.buf.length all) :
    Read sep all r (nextToken sep rest) (r.readToken sep) := by
  rw [readToken]
  generalize r.skip = o at h
  cases h with
  | ended hrest =>
      rw [hrest]
      exact ⟨_, rfl, fun h => absurd h (by decide)⟩
  | @more r₁ pre htr hs hmark hbuf =>
      obtain ⟨c, w, hw, hc, -⟩ := window_eq htr
      have hrest := htr.rest_eq hs
      rw [hw, List.cons_append] at hrest
      generalize w ++ r₁.pieces.flatten = s at hrest
      subst hrest
      simp only [Outcome.bind_ok, if_true, hc]
      rw [nextToken]
      by_cases hquote : c = quote
      · subst hquote
        simp only [decide_true, if_true]
        have htr₂ : Tracks all { r₁ with quoted := true } pre :=
          ⟨htr.fresh, htr.begin_le, htr.lt_len, htr.len_le, htr.read⟩
        have hmark₂ : mark sep (pre ++ [quote]) = ⟨.opened, r₁.token.length + 1⟩ := by
          rw [mark_append, hmark, Mark.step]
          simp only [if_true]
        have hadv := advance_advanced htr₂ (by rwa [hbuf]) hw (by rw [hmark₂]; rfl)
        have hs₂ : pre ++ [quote] ++ s = all.flatten := by rw [← hs, List.append_assoc]; rfl
        generalize advance _ = o at hadv
        cases hadv with
        | ended hend hq hbuf' hpre hlen =>
            rw [hpre] at hs₂
            rw [List.append_right_eq_self.mp hs₂]
            exact ⟨_, rfl, fun h => absurd h (by decide)⟩
        | @more r₃ htr₃ htok₃ hq₃ hbuf₃ =>
            have hne : s ≠ [] := by
              obtain ⟨d, w', hw', -, -⟩ := window_eq htr₃
              rw [htr₃.rest_eq hs₂, hw']
              exact List.cons_ne_nil _ _
            simp only [Outcome.bind_ok, if_true, if_neg hne]
            have hscan := scan_quoted htr₃.begun (by rwa [hbuf₃, hbuf]) hq₃
              (Or.inl ⟨by rw [hmark₂], token_begun⟩) hs₂
              (Nat.lt_succ_of_le (htr₃.begun.remaining_eq hs₂).le)
            rw [token_begun] at hscan
            exact hscan.read hq₃ (hbuf₃.trans hbuf)
      · have htr₂ : Tracks all { r₁ with quoted := decide (c = quote), tb := r₁.te } pre :=
          ⟨htr.fresh, le_rfl, htr.lt_len, htr.len_le, htr.read⟩
        simp only [hquote, decide_false, Bool.false_eq_true, if_false, Outcome.bind_ok, if_true]
          at htr₂ ⊢
        have htok := @token_begun { r₁ with quoted := false }
        have hfirst : (c :: s).head? ≠ some quote := fun heq => hquote (Option.some.inj heq)
        have hscan := scan_plain htr₂ (by rwa [hbuf]) rfl (Or.inl ⟨by rw [hmark], htok⟩)
          (fun _ => hfirst) hs (Nat.lt_succ_of_le (htr₂.remaining_eq hs).le)
        rw [htok] at hscan
        exact hscan.read rfl hbuf

/-! ## A whole run -/

theorem calls_eq_tokens {rest : List UInt8} (n : Nat) (h : Skipped sep all r rest r.skip)
    (hclean : Clean sep r.buf.length all) : calls sep n r = some (tokens sep n rest) := by
  induction n generalizing r rest with
  | zero => rfl
  | succ n ih =>
      have hread := readToken_read h hclean
      rw [calls, tokens]
      generalize nextToken sep rest = next at hread
      obtain ⟨next, quoted⟩ := next
      cases next with
      | none =>
          obtain ⟨r', hthrow⟩ := hread
          rw [hthrow]
      | some found =>
          obtain ⟨tok, ret, rest'⟩ := found
          obtain ⟨r', hok, hafter⟩ := hread
          rw [hok]
          simp only
          split
          · rfl
          · next hret =>
              obtain ⟨htok, hq, hbuf, hafter⟩ := hafter (not_lt.mp hret)
              have hclean' : Clean sep r'.buf.length all := by rwa [hbuf]
              have hskip := skip_after hafter hclean'
              rw [hq] at hskip
              rw [ih hskip hclean', htok]
              rfl

end Reader

theorem held_step_le (sep : UInt8) (m : Mark) (c : UInt8) : (m.step sep c).held ≤ m.held + 1 := by
  obtain ⟨place, held⟩ := m
  cases place with
  | broken => exact Nat.le_succ _
  | _ =>
      simp only [Mark.step]
      split_ifs <;> simp only <;> omega

theorem held_mark_le (sep : UInt8) (bs : List UInt8) : (mark sep bs).held ≤ bs.length := by
  induction bs using List.reverseRecOn with
  | nil => exact le_rfl
  | append_singleton bs c ih =>
      rw [Reader.mark_append, List.length_append, List.length_singleton]
      exact (held_step_le sep _ c).trans (Nat.succ_le_succ ih)

theorem flatten_whole (file : List UInt8) : (whole file).flatten = file := by
  rw [whole]
  split
  · next hnil => rw [hnil, List.flatten_nil]
  · rw [List.flatten_cons, List.flatten_nil, List.append_nil]

/-- A file that is read at once, into a buffer that is two bytes longer. -/
theorem clean_whole (sep : UInt8) {bufsz : Nat} {file : List UInt8} (h : file.length + 1 < bufsz) :
    Clean sep bufsz (whole file) := by
  have hsplit : ∀ done rest, whole file = done ++ rest →
      done = [] ∧ (rest = [] ∨ rest = [file] ∧ file ≠ []) ∨ done = [file] ∧ rest = [] := by
    intro done rest heq
    rw [whole] at heq
    split at heq
    · obtain ⟨hdone, hrest⟩ := List.append_eq_nil_iff.mp heq.symm
      exact Or.inl ⟨hdone, Or.inl hrest⟩
    · next hne =>
        rcases List.append_eq_singleton_iff.mp heq.symm with ⟨hdone, hrest⟩ | hwhole
        · exact Or.inl ⟨hdone, Or.inr ⟨hrest, hne⟩⟩
        · exact Or.inr hwhole
  refine ⟨by omega, ?_, ?_, ?_⟩
  · intro done p rest heq
    rcases hsplit done (p :: rest) heq with ⟨rfl, hrest | ⟨hrest, hne⟩⟩ | ⟨-, hrest⟩
    · cases hrest
    · obtain ⟨rfl, -⟩ := List.cons.inj hrest
      exact ⟨hne, by show 0 + p.length ≤ bufsz; omega⟩
    · cases hrest
  · intro done rest heq hrest
    rcases hsplit done rest heq with ⟨rfl, -⟩ | ⟨-, hnil⟩
    · exact Place.noConfusion
    · exact absurd hnil hrest
  · intro done rest heq hdone
    rcases hsplit done rest heq with ⟨hnil, -⟩ | ⟨rfl, -⟩
    · exact absurd hnil hdone
    · rw [List.flatten_cons, List.flatten_nil, List.append_nil]
      have := held_mark_le sep file
      rw [Mark.need]
      split <;> omega

/-- The results of the calls do not depend on the pieces that the file comes in. -/
theorem calls_pieces (sep : UInt8) (buf buf' : List UInt8) (pieces : List (List UInt8)) (n : Nat)
    (hclean : Clean sep buf.length pieces) (hfits : pieces.flatten.length + 1 < buf'.length) :
    ∃ rs, calls sep n (start buf pieces) = some rs ∧
      calls sep n (start buf' (whole pieces.flatten)) = some rs := by
  have hclean' := clean_whole sep hfits
  refine ⟨tokens sep n pieces.flatten, ?_, ?_⟩
  · exact Reader.calls_eq_tokens n (Reader.skip_start hclean) hclean
  · have hskip := Reader.skip_start hclean'
    rw [flatten_whole] at hskip
    exact Reader.calls_eq_tokens n hskip hclean'

/-- `"ab",c` and a newline, with pieces that end in the quoted token and behind its separator. -/
theorem calls_pieces_two : ∃ rs,
    calls 44 2 (start (List.replicate 8 0) [[34, 97], [98, 34, 44], [99, 10]]) = some rs ∧
      calls 44 2 (start (List.replicate 16 0) (whole [34, 97, 98, 34, 44, 99, 10])) = some rs := by
  refine calls_pieces 44 _ _ [[34, 97], [98, 34, 44], [99, 10]] 2 ⟨by decide, ?_, ?_, ?_⟩ (by decide)
  · rintro (_ | ⟨p₁, _ | ⟨p₂, _ | ⟨p₃, done⟩⟩⟩) p rest heq
    · cases heq
      decide
    · cases heq
      decide
    · cases heq
      decide
    · cases done <;> cases heq
  · rintro (_ | ⟨p₁, _ | ⟨p₂, _ | ⟨p₃, done⟩⟩⟩) rest heq hrest
    · decide
    · cases heq
      decide
    · cases heq
      decide
    · cases done
      · cases heq
        exact absurd rfl hrest
      · cases heq
  · rintro (_ | ⟨p₁, _ | ⟨p₂, _ | ⟨p₃, done⟩⟩⟩) rest heq hdone
    · exact absurd rfl hdone
    · cases heq
      decide
    · cases heq
      decide
    · cases done
      · cases heq
        decide
      · cases heq

/-- `"a",b` and a newline, with a piece that ends at the closing quote. -/
theorem not_calls_pieces :
    calls 44 2 (start (List.replicate 16 0) [[34, 97, 34], [44, 98, 10]]) =
        some [.error (.outOfRange "quote does not terminate token")] ∧
      calls 44 2 (start (List.replicate 16 0) (whole [34, 97, 34, 44, 98, 10])) =
        some [.token [97] 44, .token [98] 10] := by
  decide

end Ztsdb.Csv
