import Mathlib
import Ztsdb.Net.Code
import Ztsdb.Net.ReadShift
import Ztsdb.Net.Response

/-!
# Requests

A request is an expression, with the length of its code before it, and a list of the values
of its bound variables. `ReqState::readData` collects the code over chunks until it is all
there, and reads the values from what is left of the last of these chunks on. So something
has to be left: when the list begins in a chunk of its own, `valstack[0]` is looked at
before there is one.
-/

namespace Ztsdb.Net

open Ztsdb.Lib Ztsdb.Arr Ztsdb.Lang E
open AppendMessage (getAlignedLength)

/-! ## The code as tokens -/

def Piece.tokens : Piece → List Token
  | word k n => [.word k n]
  | string t => stringTokens t

theorem Piece.write_tokens (p : Piece) (ec : Encode) : writeTokens p.tokens ec = p.write ec := by
  cases p with
  | word k n => rfl
  | string t =>
      show (some (ec.put 8 t.length)).bind (writeTokens [.chars t]) = ec.string t
      rw [Option.bind_some, writeTokens, Token.write, Encode.string]
      cases Encode.copyString t t.length (ec.word t.length) with
      | none => rfl
      | some ec' => rfl

theorem write_tokens (ps : List Piece) (ec : Encode) :
    writeTokens (ps.flatMap Piece.tokens) ec = write ps ec := by
  induction ps generalizing ec with
  | nil => rfl
  | cons p ps ih =>
      rw [List.flatMap_cons, writeTokens_append, Piece.write_tokens, write_cons]
      cases p.write ec with
      | none => rfl
      | some ec' => exact ih ec'

theorem Fits.allFit {off : Nat} {ps : List Piece} (h : Fits off ps) :
    AllFit off (ps.flatMap Piece.tokens) := by
  have hnext (off k n : Nat) : (Token.word k n).next off = Piece.advance off k := by
    rw [Token.next, Piece.advance, Token.image, length_leBytes]
    by_cases hb : CHUNKSZ < off + k
    · rw [if_pos hb, if_pos (show (Token.word k n).Breaks off from hb)]
    · rw [if_neg hb, if_neg (show ¬ (Token.word k n).Breaks off from hb)]
  induction ps generalizing off with
  | nil => trivial
  | cons p ps ih =>
      obtain ⟨hp, hps⟩ := h
      cases p with
      | word k n => exact ⟨trivial, by rw [hnext]; exact ih hps⟩
      | string t =>
          refine ⟨trivial, ?_, ?_⟩
          · rw [hnext]
            exact hp
          · have hlen : t.length ≤ getAlignedLength t.length := by
              rcases hp with rfl | ⟨hlt, -⟩
              · exact Nat.zero_le _
              · exact getAlignedLength_le (by omega)
            have hchars : (Token.chars t).next (Piece.advance off 8) = (Piece.string t).next off := by
              rw [Token.next, if_neg (show ¬ (Token.chars t).Breaks _ from id), Token.image, Piece.next,
                List.length_append, List.length_replicate]
              omega
            rw [hnext, hchars]
            exact ih hps

/-- A token that leaves something in the chunk it begins. -/
def Token.Leaves : Token → Prop
  | room => False
  | word k _ => 0 < k
  | chars _ => True

/-- Chunks of such tokens are not empty. -/
theorem chunks_tokens_ne {buf : List UInt8} {ts : List Token} (hb : buf ≠ []) (ht : ∀ t ∈ ts, t.Leaves) :
    ∀ c ∈ chunks buf ts, c ≠ [] := by
  induction ts generalizing buf with
  | nil =>
      intro c hc
      cases List.mem_singleton.mp hc
      exact hb
  | cons t ts ih =>
      obtain ⟨hl, hts⟩ := List.forall_mem_cons.mp ht
      rw [chunks]
      split
      · next hbreak =>
          refine List.forall_mem_cons.mpr ⟨hb, ih ?_ hts⟩
          cases t with
          | room => exact absurd hl id
          | word k n =>
              refine List.ne_nil_of_length_pos ?_
              rw [Token.image, length_leBytes]
              exact hl
          | chars t => exact absurd hbreak id
      · exact ih (List.append_ne_nil_of_left_ne_nil hb _) hts

/-- The tokens of pieces leave something. -/
def LeaveAll (ps : List Piece) : Prop := ∀ t ∈ ps.flatMap Piece.tokens, t.Leaves

@[simp] theorem leaveAll_nil : LeaveAll [] := fun _ ht => absurd ht List.not_mem_nil

@[simp] theorem leaveAll_word {k n : Nat} {ps : List Piece} :
    LeaveAll (.word k n :: ps) ↔ 0 < k ∧ LeaveAll ps := by
  rw [LeaveAll, List.flatMap_cons, List.forall_mem_append]
  exact and_congr_left' List.forall_mem_singleton

@[simp] theorem leaveAll_string {t : List UInt8} {ps : List Piece} :
    LeaveAll (.string t :: ps) ↔ LeaveAll ps := by
  rw [LeaveAll, List.flatMap_cons, List.forall_mem_append]
  refine and_iff_right fun u hu => ?_
  simp only [Piece.tokens, stringTokens, List.mem_cons, List.not_mem_nil, or_false] at hu
  rcases hu with rfl | rfl
  · exact Nat.zero_lt_succ 7
  · trivial

@[simp] theorem leaveAll_append {ps qs : List Piece} :
    LeaveAll (ps ++ qs) ↔ LeaveAll ps ∧ LeaveAll qs := by
  rw [LeaveAll, List.flatMap_append, List.forall_mem_append]
  rfl

mutual

/-- No word of the code is of no bytes. -/
theorem leaveAll_pieces : ∀ e : E, LeaveAll (pieces e)
  | etnull => by simp [pieces]
  | etnext => by simp [pieces]
  | etbreak => by simp [pieces]
  | etellipsis => by simp [pieces]
  | literal (.bool _) => by simp [pieces]
  | literal (.double _) => by simp [pieces]
  | literal (.dtime _) => by simp [pieces]
  | literal (.interval ..) => by simp [pieces]
  | literal (.string _) => by simp [pieces]
  | etsymbol _ _ => by simp [pieces, piecesSymbol]
  | etboundvar _ => by simp [pieces]
  | etescape _ => by simp [pieces]
  | etunop _ e => by simp [pieces, leaveAll_pieces e]
  | etbinop _ left right _ => by simp [pieces, leaveAll_pieces left, leaveAll_pieces right]
  | etexprlist el => by simp [pieces, leaveAll_piecesAll el]
  | etwhile e1 e2 => by simp [pieces, leaveAll_pieces e1, leaveAll_pieces e2]
  | etifelse e1 e2 e3 => by
      simp [pieces, leaveAll_pieces e1, leaveAll_pieces e2, leaveAll_pieces e3]
  | etfor forloop => by simp [pieces, leaveAll_pieces forloop]
  | etleftassign e1 e2 => by simp [pieces, leaveAll_pieces e1, leaveAll_pieces e2]
  | etspecialassign e1 e2 => by simp [pieces, leaveAll_pieces e1, leaveAll_pieces e2]
  | etrequest e1 e2 => by simp [pieces, leaveAll_pieces e1, leaveAll_pieces e2]
  | ettaggedexpr _ _ e => by simp [pieces, piecesSymbol, leaveAll_pieces e]
  | etfunction formlist body => by
      simp [pieces, leaveAll_piecesAll formlist, leaveAll_pieces body]
  | etfuncall e el => by simp [pieces, leaveAll_pieces e, leaveAll_piecesAll el]
  | etarg _ e => by simp [pieces, leaveAll_pieces e]

theorem leaveAll_piecesAll : ∀ el : List E, LeaveAll (piecesAll el)
  | [] => by simp [piecesAll]
  | e :: el => by simp [piecesAll, leaveAll_pieces e, leaveAll_piecesAll el]

end

/-- The code of an expression in chunks: the length is in the first of them, and none is
empty. -/
theorem code_chunks {e : E} {n : Nat} (hb : built e = true) (ha : accepted e = true) (hf : FitsChunks e) :
    ∃ ec, writeCode e (Encode.init.word n) = some ec ∧ ec.bytes = leBytes 8 n ++ image (pieces e) ∧
      ec.sent ++ [ec.buf] = chunks (leBytes 8 n) ((pieces e).flatMap Piece.tokens) ∧ ec.buf ≠ [] := by
  obtain ⟨ec, hec, hbytes⟩ := writeCode_bytes hb ha hf n
  have hinit : Encode.init.word n = ⟨[], leBytes 8 n⟩ := rfl
  have hall := hf.allFit
  obtain ⟨ec', hec', hchunks⟩ := @writeTokens_chunks _ [] (leBytes 8 n)
    (show AllFit (headerSize + (leBytes 8 n).length) ((pieces e).flatMap Piece.tokens) by
      rw [length_leBytes]
      exact hall)
  rw [write_tokens, ← writeCode_eq hb ha, ← hinit, hec] at hec'
  cases hec'
  have hne : leBytes 8 n ≠ [] := List.ne_nil_of_length_pos (by rw [length_leBytes]; omega)
  rw [List.nil_append] at hchunks
  refine ⟨ec, hec, hbytes, hchunks, chunks_tokens_ne hne (leaveAll_pieces e) ec.buf ?_⟩
  rw [← hchunks]
  exact List.mem_append_right _ (List.mem_singleton_self _)

/-! ## The bound on the depth of code -/

theorem readEach_refines {f g : Nat → Option (E × Nat)} (h : ∀ off, Refines (f off) (g off)) (n off : Nat) :
    Refines (readEach f n off) (readEach g n off) := by
  induction n generalizing off with
  | zero => exact .refl _
  | succ n ih => exact (h off).bind fun x => (ih x.2).map _

/-- A larger bound reads the same. -/
theorem readCode_succ (buf : List UInt8) (k off : Nat) :
    Refines (readCode k buf off) (readCode (k + 1) buf off) := by
  induction k generalizing off with
  | zero => exact fun x h => by cases h
  | succ k ih =>
      rw [readCode, readCode]
      refine (Refines.refl _).bind fun x => ?_
      obtain ⟨n, off⟩ := x
      dsimp only
      cases Etype.ofNum n with
      | none => exact .refl _
      | some t =>
          cases t with
          | etunop | etarg => exact (Refines.refl _).bind fun _ => (ih _).map _
          | etbinop => exact (Refines.refl _).bind fun _ => (ih _).bind fun _ => (ih _).map _
          | etexprlist => exact (Refines.refl _).bind fun _ => (readEach_refines ih _ _).map _
          | etfor => exact (ih _).map _
          | etwhile | etleftassign | etspecialassign | etrequest => exact (ih _).bind fun _ => (ih _).map _
          | etifelse => exact (ih _).bind fun _ => (ih _).bind fun _ => (ih _).map _
          | ettaggedexpr =>
              refine (ih off).bind fun x => ?_
              obtain ⟨sym, off⟩ := x
              cases sym with
              | etsymbol s ref => exact (ih _).map _
              | _ => exact .refl _
          | etfunction =>
              refine (ih off).bind fun x => ?_
              obtain ⟨el, off⟩ := x
              cases el with
              | etexprlist el => exact (ih _).map _
              | _ => exact .refl _
          | etfuncall => exact (ih off).bind fun _ => (ih _).bind fun _ => .refl _
          | _ => exact .refl _
end Ztsdb.Net

namespace Ztsdb.Net.Request

open Ztsdb.Lib Ztsdb.Arr Ztsdb.Lang E

inductive IncomingReqState where
  | CTX_REQ_IDLE
  | CTX_REQ_CODE
  | CTX_REQ_VALUE
  | CTX_REQ_DONE
  deriving DecidableEq

/-- `ReqState`, as far as it is read into. -/
structure ReqState where
  state : IncomingReqState
  e : Option E
  codeLen : Nat
  codeBuf : List UInt8
  valstack : List ValState
  valstack_idx : Nat

namespace ReqState

def init : ReqState := ⟨.CTX_REQ_IDLE, none, 0, [], [], 0⟩

/-- The case of values. -/
def readValues (k : Nat) (buf : List UInt8) (req : ReqState) : Option ReqState :=
  match readValue buf k ⟨0, req.valstack, req.valstack_idx⟩ with
  | some (.returns r) =>
    r.ss[0]?.map fun vs =>
      { req with
        state := if vs.n = vs.exp then .CTX_REQ_DONE else req.state
        valstack := r.ss
        valstack_idx := r.idx }
  | _ => none

/-- The case of code, which goes on with that of values. -/
def readCodeBuf (k : Nat) (buf : List UInt8) (req : ReqState) : Option ReqState :=
  let lenToCopy :=
    if req.codeLen ≤ req.codeBuf.length + buf.length then req.codeLen - req.codeBuf.length
    else buf.length
  let codeBuf := req.codeBuf ++ buf.take lenToCopy
  if codeBuf.length = req.codeLen then
    (readCode k codeBuf 0).bind fun x =>
      readValues k (buf.drop lenToCopy)
        { req with e := some x.1, codeBuf := [], codeLen := 0, state := .CTX_REQ_VALUE }
  else some { req with codeBuf }

/-- `ReqState::readData`, with a bound on the depth of the code and on the turns of
`readValue`. There is no result where one of them throws or something is read that is not
there. -/
def readData (k : Nat) (buf : List UInt8) (req : ReqState) : Option ReqState :=
  match req.state with
  | .CTX_REQ_IDLE =>
    (readWord 8 buf 0).bind fun x =>
      readCodeBuf k (buf.drop 8) { req with codeLen := x.1, state := .CTX_REQ_CODE }
  | .CTX_REQ_CODE => readCodeBuf k buf req
  | .CTX_REQ_VALUE => readValues k buf req
  | .CTX_REQ_DONE => none

theorem readValues_succ (k : Nat) (buf : List UInt8) (req : ReqState) :
    Refines (req.readValues k buf) (req.readValues (k + 1) buf) := by
  intro req' h
  rw [readValues] at h ⊢
  cases hr : readValue buf k ⟨0, req.valstack, req.valstack_idx⟩ with
  | none =>
      rw [hr] at h
      cases h
  | some e =>
      rw [hr] at h
      rw [RspState.readValue_succ buf k _ e hr]
      exact h

theorem readCodeBuf_succ (k : Nat) (buf : List UInt8) (req : ReqState) :
    Refines (req.readCodeBuf k buf) (req.readCodeBuf (k + 1) buf) := by
  rw [readCodeBuf, readCodeBuf]
  exact .ite (fun _ => (readCode_succ _ k 0).bind fun _ => readValues_succ k _ _) fun _ => .refl _

theorem readData_succ (buf : List UInt8) (k : Nat) (req : ReqState) :
    Refines (req.readData k buf) (req.readData (k + 1) buf) := by
  rw [readData, readData]
  cases req.state with
  | CTX_REQ_IDLE => exact (Refines.refl _).bind fun _ => readCodeBuf_succ k _ _
  | CTX_REQ_CODE => exact readCodeBuf_succ k buf req
  | CTX_REQ_VALUE => exact readValues_succ k buf req
  | CTX_REQ_DONE => exact .refl _

theorem readData_deepens (buf : List UInt8) : Deepens fun k => readData k buf := readData_succ buf

/-! ## Code that is collected -/

/-- Some code is there. -/
def started (n : Nat) (codeBuf : List UInt8) : ReqState :=
  ⟨.CTX_REQ_CODE, none, n, codeBuf, [], 0⟩

/-- A part of the code. -/
theorem readCodeBuf_part {k n : Nat} {codeBuf c : List UInt8} (h : codeBuf.length + c.length < n) :
    (started n codeBuf).readCodeBuf k c = some (started n (codeBuf ++ c)) := by
  have hne : (codeBuf ++ c).length ≠ n := by
    rw [List.length_append]
    omega
  rw [started, readCodeBuf]
  dsimp only
  simp only [if_neg (Nat.not_le.mpr h), List.take_length, if_neg hne]
  rfl

/-- The rest of the code. -/
theorem readCodeBuf_rest {k : Nat} {codeBuf c : List UInt8} (tail : List UInt8) :
    (started (codeBuf ++ c).length codeBuf).readCodeBuf k (c ++ tail) =
      (readCode k (codeBuf ++ c) 0).bind fun x =>
        readValues k tail ⟨.CTX_REQ_VALUE, some x.1, 0, [], [], 0⟩ := by
  have hcopy : (codeBuf ++ c).length - codeBuf.length = c.length := by
    rw [List.length_append, Nat.add_sub_cancel_left]
  have hle : (codeBuf ++ c).length ≤ codeBuf.length + (c ++ tail).length := by
    rw [List.length_append, List.length_append]
    omega
  rw [started, readCodeBuf]
  dsimp only
  simp only [if_pos hle, hcopy, List.take_left, List.drop_left, if_true]

/-- The first chunk. -/
theorem readData_init (k n : Nat) (c : List UInt8) (hn : n < 2 ^ 64) :
    init.readData k (leBytes 8 n ++ c) = (started n []).readCodeBuf k c := by
  have hw := @readWord_at (leBytes 8 n ++ c) 0 8 n ⟨[], c, rfl, rfl⟩ (by norm_num at hn ⊢; exact hn)
  have hdrop : (leBytes 8 n ++ c).drop 8 = c := List.drop_left' (length_leBytes 8 n)
  rw [init, readData]
  simp only [hw, Option.bind_some, hdrop]
  rfl

/-- Chunks that are parts of the code. -/
theorem takes_parts {k n : Nat} {codeBuf : List UInt8} {cs : List (List UInt8)}
    (h : codeBuf.length + cs.flatten.length < n) :
    takes (readData k) cs (started n codeBuf) = some (started n (codeBuf ++ cs.flatten)) := by
  induction cs generalizing codeBuf with
  | nil => rw [takes_nil, List.flatten_nil, List.append_nil]
  | cons c cs ih =>
      rw [List.flatten_cons, List.length_append] at h
      have hpart : (started n codeBuf).readData k c = some (started n (codeBuf ++ c)) :=
        readCodeBuf_part (by omega)
      rw [takes_cons, hpart, Option.bind_some, ih (by rw [List.length_append]; omega), List.flatten_cons,
        List.append_assoc]

/-- From the start on. -/
theorem takes_init_parts {k n : Nat} {c : List UInt8} {cs : List (List UInt8)} (hn : n < 2 ^ 64)
    (h : c.length + cs.flatten.length < n) :
    takes (readData k) ((leBytes 8 n ++ c) :: cs) init = some (started n (c ++ cs.flatten)) := by
  rw [takes_cons, readData_init k n c hn, readCodeBuf_part (by rw [List.length_nil]; omega),
    Option.bind_some, List.nil_append]
  exact takes_parts h

/-- The chunk that has the last of the code, and something behind it. -/
theorem takes_code {k : Nat} {code : List UInt8} {sent : List (List UInt8)} {buf c : List UInt8}
    {cs : List (List UInt8)} (hsplit : sent ++ [buf] = (leBytes 8 code.length ++ c) :: cs)
    (hbytes : sent.flatten ++ buf = leBytes 8 code.length ++ code) (hbuf : buf ≠ [])
    (hn : code.length < 2 ^ 64) (tail : List UInt8) :
    takes (readData k) (sent ++ [buf ++ tail]) init =
      (readCode k code 0).bind fun x =>
        readValues k tail ⟨.CTX_REQ_VALUE, some x.1, 0, [], [], 0⟩ := by
  cases sent with
  | nil =>
      obtain ⟨rfl, rfl⟩ := List.cons.inj hsplit
      have hc : c = code := List.append_cancel_left hbytes
      subst hc
      rw [List.nil_append, takes_one, List.append_assoc, readData_init k _ _ hn]
      exact @readCodeBuf_rest k [] c tail
  | cons c₀ sent =>
      obtain ⟨rfl, -⟩ := List.cons.inj hsplit
      rw [List.flatten_cons, List.append_assoc, List.append_assoc] at hbytes
      have hcode : c ++ sent.flatten ++ buf = code := by
        rw [List.append_assoc]
        exact List.append_cancel_left hbytes
      subst hcode
      have hlen : c.length + sent.flatten.length < (c ++ sent.flatten ++ buf).length := by
        have hpos := List.length_pos_of_ne_nil hbuf
        rw [List.length_append, List.length_append]
        omega
      rw [takes_append, takes_init_parts hn hlen, Option.bind_some, takes_one]
      exact readCodeBuf_rest tail

/-- The chunks before that one. -/
theorem takes_before {k : Nat} {code : List UInt8} {sent as bs : List (List UInt8)} {buf c : List UInt8}
    {cs : List (List UInt8)} (hsplit : sent ++ [buf] = (leBytes 8 code.length ++ c) :: cs)
    (hbytes : sent.flatten ++ buf = leBytes 8 code.length ++ code) (hbuf : buf ≠ [])
    (hn : code.length < 2 ^ 64) (hs : sent = as ++ bs) :
    ∃ req, takes (readData k) as init = some req ∧ req.state ≠ .CTX_REQ_DONE := by
  cases as with
  | nil => exact ⟨init, rfl, fun h => by cases h⟩
  | cons a as =>
      subst hs
      obtain ⟨rfl, -⟩ := List.cons.inj hsplit
      have hlen : c.length + as.flatten.length < code.length := by
        have hl := congrArg List.length hbytes
        have hpos := List.length_pos_of_ne_nil hbuf
        rw [List.cons_append, List.flatten_cons, List.flatten_append] at hl
        simp only [List.length_append, length_leBytes] at hl
        omega
      exact ⟨_, takes_init_parts hn hlen, fun h => by cases h⟩

/-! ## Values -/

/-- A request with its expression, whose reader is between two chunks. -/
structure Between (e : E) (m : Nat) (req : ReqState) (r : Reader) : Prop where
  e : req.e = some e
  stack : req.valstack = r.ss
  idx : req.valstack_idx = r.idx
  off : r.off = 0
  waits : Waits m r
  state : req.state = .CTX_REQ_VALUE ∨ req.state = .CTX_REQ_DONE
  done : req.state = .CTX_REQ_DONE ↔ ∃ vs ∈ r.ss[0]?, vs.n = vs.exp

theorem readValues_between {e : E} {m : Nat} {c : List UInt8} {req : ReqState} {r : Reader}
    (he : req.e = some e) (hs : req.state = .CTX_REQ_VALUE)
    (hend : Ends c ⟨0, req.valstack, req.valstack_idx⟩ (.returns r)) (hw : Waits m r) :
    ∃ k req', (∀ j, k ≤ j → req.readValues j c = some req') ∧ Between e m req' { r with off := 0 } := by
  obtain ⟨k, hk⟩ := hend
  obtain ⟨vs, above, hss, hm, hp⟩ := hw
  have hget : r.ss[0]? = some vs := by rw [hss]; rfl
  refine ⟨k, { req with
      state := if vs.n = vs.exp then .CTX_REQ_DONE else req.state
      valstack := r.ss
      valstack_idx := r.idx }, fun j hj => ?_, he, rfl, rfl, rfl, ⟨vs, above, hss, hm, hp⟩, ?_, ?_⟩
  · rw [readValues, (RspState.readValue_deepens c).le hj _ _ hk]
    simp only [hget, Option.map_some]
  · rw [hs]
    dsimp only
    split
    · exact .inr rfl
    · exact .inl rfl
  · rw [hs]
    dsimp only
    simp only [hget, Option.mem_def, Option.some.injEq, exists_eq_left']
    split
    · next h => exact iff_of_true rfl h
    · next h => exact iff_of_false (fun h => by cases h) h

/-- One chunk after the other. -/
theorem takes_between {e : E} {m : Nat} {P : Reader → Prop} {cs ds : List (List UInt8)}
    {req : ReqState} {r : Reader} (hb : Between e m req r) (hm : cs = [] ∨ m ≠ 0)
    (hd : Delivers P r (cs ++ ds)) (hne : ∀ c ∈ cs, c ≠ []) :
    ∃ k req' r', (∀ j, k ≤ j → takes (readData j) cs req = some req') ∧ Between e m req' r' ∧ Delivers P r' ds := by
  induction cs generalizing req r with
  | nil => exact ⟨0, req, r, fun j _ => rfl, hb, hd⟩
  | cons c cs ih =>
      have hm := hm.resolve_left (List.cons_ne_nil c cs)
      obtain ⟨hc, hcs⟩ := List.forall_mem_cons.mp hne
      obtain ⟨r₁, hend, hd⟩ := (delivers_cons P r c (cs ++ ds)).mp hd
      have hr : ⟨0, req.valstack, req.valstack_idx⟩ = r := by
        rw [hb.stack, hb.idx, ← hb.off]
      have hs : req.state = .CTX_REQ_VALUE := by
        refine hb.state.resolve_right fun hdone => ?_
        obtain ⟨vs, hvs, hn⟩ := hb.done.mp hdone
        exact hb.waits.not_ends hm ⟨vs, hvs, hn.ge⟩ (hb.off ▸ List.length_pos_of_ne_nil hc) ⟨r₁, hend⟩
      obtain ⟨k, req₁, h₁, hb₁⟩ := readValues_between hb.e hs (hr ▸ hend) (hb.waits.ends hend)
      obtain ⟨k', req', r', h', hb', hd'⟩ := ih hb₁ (.inr hm) hd hcs
      refine ⟨max k k', req', r', fun j hj => ?_, hb', hd'⟩
      have hdata : req.readData j c = req.readValues j c := by
        rw [readData, hs]
      rw [takes_cons, hdata, h₁ j (by omega), Option.bind_some]
      exact h' j (by omega)

end ReqState

/-! ## Whole requests -/

open Request.ReqState

/-- `Encode::operator<<` of an expression. -/
def writeExpr (e : E) (ec : Encode) : Option Encode :=
  (codeLength e).bind fun n => writeCode e (ec.word n)

/-- Of the chunks of a request the last one completes it, and then the expression and the
list of the bound variables are there. -/
def Arrives (e : E) (l : List (List UInt8 × Val)) (bufs : List (List UInt8)) : Prop :=
  ∀ cs ds, bufs = cs ++ ds → ∃ k req, takes (readData k) cs init = some req ∧
    (req.state = .CTX_REQ_DONE ↔ ds = []) ∧
    (ds = [] → req.e = some e ∧ req.valstack = [(Val.list l).state] ∧ req.valstack_idx = 0)

theorem ends_of_shift {front c : List UInt8} {ss : List ValState} {idx : Nat} {r : Reader}
    (h : Ends (front ++ c) ⟨front.length, ss, idx⟩ (.returns r)) :
    ∃ r₀, Ends c ⟨0, ss, idx⟩ (.returns r₀) ∧ r = r₀.shift front := by
  obtain ⟨k, hk⟩ := h
  have hs := @readValue_shift front c k ⟨0, ss, idx⟩
  rw [show (⟨0, ss, idx⟩ : Reader).shift front = ⟨front.length, ss, idx⟩ from rfl, hk] at hs
  obtain ⟨e, he, hr⟩ := Option.map_eq_some_iff.mp hs.symm
  cases e with
  | returns r₀ =>
      cases hr
      exact ⟨r₀, ⟨k, he⟩, rfl⟩
  | throws e => cases hr
  | faults => cases hr

/-- Nothing is left for the values. -/
theorem readValues_nil (k : Nat) (e : E) :
    readValues k [] ⟨.CTX_REQ_VALUE, some e, 0, [], [], 0⟩ = none := by
  rw [readValues]
  cases k with
  | zero => rfl
  | succ k =>
      dsimp only
      rw [readValue, if_neg]
      · rfl
      · rintro (h | ⟨h, -⟩)
        · exact Nat.lt_irrefl 0 h
        · exact Nat.lt_irrefl 0 h

/-- A list goes on in the chunk of the code if there is room for its head. -/
theorem base_list (l : List (List UInt8 × Val)) (buf : List UInt8) :
    base buf ((Val.list l).items.headD []) =
      if headerSize + buf.length + 16 < CHUNKSZ then buf else [] := by
  rw [Val.items, List.headD_cons]
  show (if CHUNKSZ ≤ headerSize + buf.length + 16 then [] else buf) = _
  by_cases h : headerSize + buf.length + 16 < CHUNKSZ
  · rw [if_pos h, if_neg (Nat.not_le.mpr h)]
  · rw [if_neg h, if_pos (Nat.not_lt.mp h)]

/-- The chunks of values behind the code. -/
theorem arrives_values {e : E} {l : List (List UInt8 × Val)} {buf tail : List UInt8}
    {cs ds : List (List UInt8)} (hl : (Val.list l).Sound)
    (hw : EachWhole (headerSize + buf.length) (Val.list l).items)
    (hroom : headerSize + buf.length + 16 < CHUNKSZ)
    (hc : chunks buf (Val.list l).items.flatten = (buf ++ tail) :: (cs ++ ds)) :
    ∃ k req, (∀ j, k ≤ j →
        (readValues j tail ⟨.CTX_REQ_VALUE, some e, 0, [], [], 0⟩).bind (takes (readData j) cs) = some req) ∧
      (req.state = .CTX_REQ_DONE ↔ ds = []) ∧
      (ds = [] → req.e = some e ∧ req.valstack = [(Val.list l).state] ∧ req.valstack_idx = 0) := by
  obtain ⟨-, -, -, hd⟩ := hl.delivers hw
  have hne := chunks_ne hl.filled hw (.inr (Val.items_ne _))
  have hhead := Val.at_head hw hc (by rw [base_list, if_pos hroom])
  rw [hc] at hd hne
  obtain ⟨-, hne⟩ := List.forall_mem_cons.mp hne
  obtain ⟨hnecs, hneds⟩ := List.forall_mem_append.mp hne
  obtain ⟨r₁, hend, hd⟩ := (delivers_cons _ _ _ _).mp hd
  have hwaits := RspState.waits_first hl hhead hend
  obtain ⟨r₀, hend₀, rfl⟩ := ends_of_shift hend
  obtain ⟨k, req₁, h₁, hb₁⟩ := @readValues_between e _ tail ⟨.CTX_REQ_VALUE, some e, 0, [], [], 0⟩ r₀
    rfl rfl hend₀ hwaits
  -- an empty list is one item, so that nothing follows its chunk
  have hempty : l = [] → cs ++ ds = [] := by
    rintro rfl
    obtain ⟨hu, -⟩ := eachWhole_cons.mp hw
    have hbase := base_list [] buf
    rw [if_pos hroom] at hbase
    rw [show base buf (Net.value .list [.word 8 ([] : List (List UInt8 × Val)).length]) = buf
      from hbase] at hu
    rw [Val.items, Val.eltsItems, List.flatten_cons, List.flatten_nil, chunks_whole [] hu, chunks] at hc
    exact (List.cons.inj hc).2.symm
  have hm : cs ++ ds ≠ [] → (Val.list l).state.exp ≠ 0 := fun hne h0 =>
    hne (hempty (List.length_eq_zero_iff.mp h0))
  obtain ⟨k', req, r, h', hb, hd⟩ := takes_between hb₁
    (by
      by_cases hcs : cs = []
      · exact .inl hcs
      · exact .inr (hm (List.append_ne_nil_of_left_ne_nil hcs ds))) hd hnecs
  refine ⟨max k k', req, fun j hj => ?_, ?_, ?_⟩
  · rw [h₁ j (by omega), Option.bind_some]
    exact h' j (by omega)
  · rw [hb.done]
    cases ds with
    | nil =>
        cases hd
        exact iff_of_true ⟨_, rfl, rfl⟩ rfl
    | cons d ds =>
        refine iff_of_false ?_ (List.cons_ne_nil d ds)
        rintro ⟨vs, hvs, hn⟩
        obtain ⟨r', hend', -⟩ := (delivers_cons _ r d ds).mp hd
        exact hb.waits.not_ends (hm (List.append_ne_nil_of_right_ne_nil cs (List.cons_ne_nil d ds)))
          ⟨vs, hvs, hn.ge⟩ (hb.off ▸ List.length_pos_of_ne_nil (hneds d List.mem_cons_self)) ⟨r', hend'⟩
  · rintro rfl
    cases hd
    exact ⟨hb.e, hb.stack, hb.idx⟩

/-- A request as it is written: an expression whose code is counted and fits the chunks, and
the list behind it. `ec₁` is the stream between the two. -/
structure Sends (e : E) (l : List (List UInt8 × Val)) (ec₁ ec : Encode) : Prop where
  built : built e = true
  accepted : accepted e = true
  small : small e = true
  fits : FitsChunks e
  size : codeSize e < 2 ^ 64
  sound : (Val.list l).Sound
  code : writeExpr e Encode.init = some ec₁
  whole : EachWhole ec₁.offset (Val.list l).items
  values : writeTokens (Val.list l).items.flatten ec₁ = some ec

variable {e : E} {l : List (List UInt8 × Val)} {ec₁ ec : Encode}

/-- The chunks of a request are those of the code, the last of them filled up. -/
theorem Sends.chunks (h : Sends e l ec₁ ec) :
    ec.sent ++ [ec.buf] = ec₁.sent ++ chunks ec₁.buf (Val.list l).items.flatten := by
  have hall := @allFit_items _ _ [] h.whole trivial
  rw [List.append_nil] at hall
  obtain ⟨ec', hec', hchunks⟩ := @writeTokens_chunks _ ec₁.sent ec₁.buf hall
  obtain rfl : ec = ec' := Option.some.inj (h.values.symm.trans hec')
  exact hchunks

/-- The chunks of the code. -/
theorem Sends.code_chunks (h : Sends e l ec₁ ec) :
    (∃ c cs, ec₁.sent ++ [ec₁.buf] = (leBytes 8 (image (pieces e)).length ++ c) :: cs) ∧
      ec₁.sent.flatten ++ ec₁.buf = leBytes 8 (image (pieces e)).length ++ image (pieces e) ∧
      ec₁.buf ≠ [] := by
  obtain ⟨n, hlen, -, hiff⟩ := codeLength_counted h.built h.accepted h.fits.short
  obtain rfl : n = codeSize e := hiff.mpr h.small
  obtain ⟨ec', hec', hbytes, hcode, hbuf⟩ := @Net.code_chunks e (codeSize e) h.built h.accepted h.fits
  have h₁ := h.code
  rw [writeExpr, hlen, Option.bind_some, hec'] at h₁
  cases h₁
  obtain ⟨c, cs, hhead⟩ := chunks_head (leBytes 8 (codeSize e)) ((pieces e).flatMap Piece.tokens)
  exact ⟨⟨c, cs, hcode.trans hhead⟩, hbytes, hbuf⟩

/-- The list begins with a new chunk, so that nothing is left with the last of the code. -/
theorem Sends.not_arrives (h : Sends e l ec₁ ec) (hroom : CHUNKSZ ≤ ec₁.offset + 16) :
    ¬ Arrives e l (ec.sent ++ [ec.buf]) := by
  intro harr
  obtain ⟨⟨c, cs, hsplit⟩, hbytes, hbuf⟩ := h.code_chunks
  have hbreak : Net.chunks ec₁.buf (Val.list l).items.flatten =
      ec₁.buf :: Net.chunks [] (Token.word 8 ValType.list.number :: .word 8 l.length ::
        (Val.eltsItems l).flatten) := by
    rw [Val.items, List.flatten_cons]
    exact if_pos hroom
  obtain ⟨k, req, hreq, -⟩ := harr (ec₁.sent ++ [ec₁.buf]) _ (by rw [h.chunks, hbreak, List.append_cons])
  have hcode := takes_code (k := k) hsplit hbytes hbuf h.size []
  rw [List.append_nil, hreq] at hcode
  obtain ⟨x, -, hx⟩ := Option.bind_eq_some_iff.mp hcode.symm
  rw [readValues_nil] at hx
  cases hx

theorem Sends.arrives (h : Sends e l ec₁ ec) (hroom : ec₁.offset + 16 < CHUNKSZ) :
    Arrives e l (ec.sent ++ [ec.buf]) := by
  intro cs ds hcd
  obtain ⟨⟨c, cs₀, hsplit⟩, hbytes, hbuf⟩ := h.code_chunks
  have hbefore {as bs : List (List UInt8)} (hs : ec₁.sent = as ++ bs) (hds : ds ≠ []) (hcs : cs = as) :
      ∃ k req, takes (readData k) cs init = some req ∧ (req.state = .CTX_REQ_DONE ↔ ds = []) ∧
        (ds = [] → req.e = some e ∧ req.valstack = [(Val.list l).state] ∧ req.valstack_idx = 0) := by
    obtain ⟨req, hreq, hstate⟩ := takes_before (k := 0) hsplit hbytes hbuf h.size hs
    exact ⟨0, req, hcs ▸ hreq, iff_of_false hstate hds, fun h => absurd h hds⟩
  obtain ⟨tail, rest, hhead⟩ := chunks_head ec₁.buf (Val.list l).items.flatten
  rw [h.chunks, hhead] at hcd
  obtain ⟨es, rfl, hes⟩ | ⟨es, hs, rfl⟩ := List.append_eq_append_iff.mp hcd
  · cases es with
    | nil =>
        refine hbefore (List.append_nil _).symm ?_ (List.append_nil _)
        rintro rfl
        cases hes
    | cons c' es =>
        obtain ⟨rfl, rfl⟩ := List.cons.inj hes
        obtain ⟨k, req, hreq, hdone⟩ := arrives_values (e := e) h.sound h.whole hroom hhead
        refine ⟨max (codeSize e) k, req, ?_, hdone⟩
        have hread : readCode (max (codeSize e) k) (image (pieces e)) 0 = some (e, 0 + codeSize e) :=
          readCode_at h.built h.accepted h.fits.short _ _ 0 (le_max_left _ _)
            ⟨[], [], rfl, by rw [List.nil_append, List.append_nil]⟩
        rw [List.append_cons, takes_append, takes_code hsplit hbytes hbuf h.size, hread, Option.bind_some]
        exact hreq _ (le_max_right _ _)
  · exact hbefore hs (List.append_ne_nil_of_right_ne_nil es (List.cons_ne_nil _ _)) rfl

/-- `f(1)`. -/
def call : E := etfuncall (etsymbol "f" false) [etarg false (literal (.double 0x3ff0000000000000))]

/-- The values of its bound variables. -/
def bound : List (List UInt8 × Val) := [([120], .array (vector .double [.word 7]))]

/-- They fit one chunk. -/
theorem call_sends : ∃ ec₁ ec, Sends call bound ec₁ ec ∧ ec₁.offset = 136 ∧ ec.sent = [] ∧
    ec.buf.length < CHUNKSZ := by
  have hf : FitsChunks call := by
    simp only [call, FitsChunks, pieces, piecesAll, piecesSymbol, List.cons_append, List.nil_append, Fits,
      Piece.Fits]
    decide
  have hl : (Val.list bound).Sound := by
    refine .list (by decide) ?_ ?_
    · intro x hx
      cases List.mem_singleton.mp hx
      decide
    · intro x hx
      cases List.mem_singleton.mp hx
      refine .array (vector_sound ?_ ?_ (by decide))
      · simp [Elt.HasType]
      · simp
  have hb : built call = true := by decide
  have ha : accepted call = true := by decide
  have hs : small call = true := by decide
  obtain ⟨ec₁, hec₁, -, hchunks, -⟩ := @code_chunks call (codeSize call) hb ha hf
  have h₁ : writeExpr call Encode.init = some ec₁ := by
    obtain ⟨n, hlen, -, hiff⟩ := codeLength_counted hb ha hf.short
    rw [writeExpr, hlen, Option.bind_some, hiff.mpr hs, hec₁]
  have hone : Net.chunks (leBytes 8 (codeSize call)) ((pieces call).flatMap Piece.tokens) =
      [] ++ [leBytes 8 (codeSize call) ++ image (pieces call)] := by
    decide +kernel
  have hbuf : ec₁.buf = leBytes 8 (codeSize call) ++ image (pieces call) := by
    rw [hone] at hchunks
    exact List.head_eq_of_cons_eq (List.append_inj' hchunks rfl).2
  have hoff : ec₁.offset = 136 := by
    show headerSize + ec₁.buf.length = 136
    rw [hbuf]
    decide +kernel
  have hw : EachWhole ec₁.offset (Val.list bound).items := by
    rw [hoff]
    decide +kernel
  have hall := @allFit_items _ _ [] hw trivial
  rw [List.append_nil] at hall
  obtain ⟨ec, h₂, hec⟩ := @writeTokens_chunks _ ec₁.sent ec₁.buf hall
  have hsent : ec₁.sent = [] := by
    rw [hone] at hchunks
    exact (List.append_inj' hchunks rfl).1
  rw [hsent, hbuf, List.nil_append] at hec
  have hlen : (Net.chunks (leBytes 8 (codeSize call) ++ image (pieces call))
      (Val.list bound).items.flatten).map List.length = [400] := by
    decide +kernel
  rw [← hec, List.map_append] at hlen
  obtain ⟨hnil, hlast⟩ := List.append_inj' (hlen.trans (List.nil_append [400]).symm) rfl
  have hlast : ec.buf.length = 400 := List.head_eq_of_cons_eq hlast
  exact ⟨ec₁, ec, ⟨hb, ha, hs, hf, by decide, hl, h₁, hw, h₂⟩, hoff, List.map_eq_nil_iff.mp hnil,
    by rw [hlast]; decide⟩

end Ztsdb.Net.Request
