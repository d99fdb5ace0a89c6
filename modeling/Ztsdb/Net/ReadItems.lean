import Mathlib
import Ztsdb.Net.ReadStream

/-!
# Items that are whole

`Rcv` is what is said of a reader with the tokens that follow what it has read of a chunk. An
item that is whole is read in one turn, at the start of a new chunk if there is one
between; a turn that completes a value reads nothing. `Reads` puts this together for the
items of a value: they leave it complete on the stack.
-/

namespace Ztsdb.Net

open Ztsdb.Lib Ztsdb.Arr
open AppendMessage (getAlignedLength getAlignedLength_of_le le_aligned)

/-- What is said of a reader that has the tokens before it, and then more chunks. -/
def Rcv (R : Reader → List (List UInt8) → Prop) (buf : List UInt8) (ts : List Token)
    (more : List (List UInt8)) (ss : List ValState) (idx : Nat) : Prop :=
  R ⟨buf.length, ss, idx⟩ (chunks buf ts ++ more)

/-- What is in front of an item in its chunk. -/
def base (buf : List UInt8) : List Token → List UInt8
  | [] => buf
  | t :: _ => if t.Breaks (headerSize + buf.length) then [] else buf

@[simp] theorem base_nil (u : List Token) : base [] u = [] := by
  cases u with
  | nil => rfl
  | cons t u => rw [base, ite_self]

theorem length_base (buf : List UInt8) (u : List Token) :
    headerSize + (base buf u).length = beginOf (headerSize + buf.length) u := by
  cases u with
  | nil => rfl
  | cons t u =>
      rw [base, beginOf]
      split <;> rfl

/-- The last chunk of some items. -/
def fill : List UInt8 → List (List Token) → List UInt8
  | buf, [] => buf
  | buf, u :: us => fill (base buf u ++ tokenImage u) us

theorem eachWhole_cons {buf : List UInt8} {u : List Token} {us : List (List Token)} :
    EachWhole (headerSize + buf.length) (u :: us) ↔
      Whole (headerSize + (base buf u).length) u ∧
        EachWhole (headerSize + (base buf u ++ tokenImage u).length) us := by
  rw [EachWhole, List.length_append, ← Nat.add_assoc, length_base]
  rfl

theorem length_fill (buf : List UInt8) (us : List (List Token)) :
    headerSize + (fill buf us).length = endOf (headerSize + buf.length) us := by
  induction us generalizing buf with
  | nil => rfl
  | cons u us ih =>
      rw [fill, ih, endOf, List.length_append, ← Nat.add_assoc, length_base]
      rfl

theorem fill_append (buf : List UInt8) (us vs : List (List Token)) :
    fill buf (us ++ vs) = fill (fill buf us) vs := by
  induction us generalizing buf with
  | nil => rfl
  | cons u us ih => exact ih _

theorem eachWhole_append {buf : List UInt8} {us vs : List (List Token)} :
    EachWhole (headerSize + buf.length) (us ++ vs) ↔
      EachWhole (headerSize + buf.length) us ∧ EachWhole (headerSize + (fill buf us).length) vs := by
  induction us generalizing buf with
  | nil => exact ⟨fun h => ⟨trivial, h⟩, fun h => h.2⟩
  | cons u us ih => rw [List.cons_append, eachWhole_cons, ih, eachWhole_cons, fill, and_assoc]

/-- An item that is whole begins a new chunk or goes on in the one that is filled. -/
theorem chunks_item {buf : List UInt8} {u : List Token}
    (h : Whole (headerSize + (base buf u).length) u) :
    base buf u = buf ∨ buf ≠ [] ∧ base buf u = [] ∧
      ∀ us, chunks buf (u ++ us) = buf :: chunks [] (u ++ us) := by
  cases u with
  | nil => exact .inl rfl
  | cons t u =>
      by_cases hb : t.Breaks (headerSize + buf.length)
      · rw [base, if_pos hb] at h ⊢
        refine .inr ⟨?_, rfl, fun us => ?_⟩
        · rintro rfl
          exact h.1 hb
        · rw [List.cons_append, chunks, if_pos hb, chunks, if_neg h.1, List.nil_append]
      · rw [base, if_neg hb]
        exact .inl rfl

/-! ## Turns -/

variable {below ss ss' : List ValState} {idx idx' : Nat} {buf : List UInt8} {ts u : List Token}
  {more : List (List UInt8)} {R : Reader → List (List UInt8) → Prop} [Observes R]

/-- A turn that reads tokens of the chunk. -/
theorem rcv_whole (h : Whole (headerSize + buf.length) u) (hu : 0 < (tokenImage u).length)
    (ht : ∀ c, At c buf.length (tokenImage u) →
      Reader.turn c ⟨buf.length, ss, idx⟩ = .again ⟨buf.length + (tokenImage u).length, ss', idx'⟩) :
    Rcv R buf (u ++ ts) more ss idx ↔ Rcv R (buf ++ tokenImage u) ts more ss' idx' := by
  obtain ⟨tail, cs, hc⟩ := chunks_head (buf ++ tokenImage u) ts
  rw [Rcv, Rcv, chunks_whole ts h, hc, List.cons_append, List.length_append]
  refine Observes.again ?_ (ht _ ⟨buf, tail, rfl, List.append_assoc ..⟩) _
  left
  simp only [List.length_append]
  omega

/-- A turn that reads a head, and what belongs to it. -/
theorem rcv_item (h : Whole (headerSize + (base buf u).length) u) (hu : 0 < (tokenImage u).length)
    (ht : ∀ c off, At c off (tokenImage u) →
      Reader.turn c ⟨off, below, below.length⟩ = .again ⟨off + (tokenImage u).length, ss, idx⟩) :
    Rcv R buf (u ++ ts) more below below.length ↔
      Rcv R (base buf u ++ tokenImage u) ts more ss idx := by
  rcases chunks_item h with hb | ⟨-, hb, hc⟩
  · rw [hb] at h ⊢
    exact rcv_whole h hu fun c hat => ht c _ hat
  · rw [hb] at h ⊢
    rw [Rcv, hc, List.cons_append]
    refine (Observes.stop ?_ _).trans (rcv_whole h hu fun c hat => ht c _ hat)
    rintro (hlt | ⟨-, hlt⟩)
    · exact Nat.lt_irrefl _ hlt
    · exact Nat.lt_irrefl _ hlt

/-- A turn that reads nothing. -/
theorem rcv_turn (h0 : 0 < idx) (hlt : idx < ss.length)
    (ht : ∀ c off, Reader.turn c ⟨off, ss, idx⟩ = .again ⟨off, ss', idx'⟩) :
    Rcv R buf ts more ss idx ↔ Rcv R buf ts more ss' idx' := by
  obtain ⟨tail, cs, hc⟩ := chunks_head buf ts
  rw [Rcv, Rcv, hc, List.cons_append]
  exact Observes.again (.inr ⟨h0, hlt⟩) (ht _ _) _

/-! ## The stack -/

theorem getElem?_above (below : List ValState) (f : ValState) (fs : List ValState) :
    (below ++ f :: fs)[below.length]? = some f := by
  rw [List.getElem?_append_right (Nat.le_refl _), Nat.sub_self]
  rfl

theorem set_above (below : List ValState) (f g : ValState) (fs : List ValState) :
    (below ++ f :: fs).set below.length g = below ++ g :: fs := by
  rw [List.set_append_right _ _ (Nat.le_refl _), Nat.sub_self]
  rfl

theorem put_above (off : Nat) (below : List ValState) (f g : ValState) (fs : List ValState) :
    Reader.put ⟨off, below ++ f :: fs, below.length + 1⟩ g =
      ⟨off, below ++ g :: fs, below.length + 1⟩ := by
  rw [Reader.put]
  simp only [Nat.add_sub_cancel, set_above]

theorem pop_above (off : Nat) (below : List ValState) (f g : ValState) (idx : Nat) :
    Reader.pop ⟨off, below ++ [f, g], idx⟩ = ⟨off, below ++ [f], idx⟩ := by
  rw [Reader.pop]
  simp only [List.dropLast_append_of_ne_nil (List.cons_ne_nil f [g])]
  rfl

theorem complete_above (off : Nat) (below ss : List ValState) :
    Reader.complete ⟨off, ss, below.length + 1⟩ = ⟨off, ss, below.length⟩ := rfl

/-- The child that is complete. -/
theorem getElem?_child (below : List ValState) (f g : ValState) :
    (below ++ [f, g])[below.length + 1]? = some g := by
  rw [List.getElem?_append_right (by omega), Nat.add_sub_cancel_left]
  rfl

theorem switch_named_name {c : List UInt8} {off st : Nat} {nm v : Val} {g : ValState} :
    Reader.switch c ⟨.named nm v, 2, 0, st⟩ ⟨off, below ++ [⟨.named nm v, 2, 0, st⟩, g], below.length + 1⟩ =
      .again ⟨off, below ++ [⟨.named g.val v, 2, 1, st⟩], below.length + 1⟩ := by
  rw [Reader.switch]
  simp only [Reader.readNamed, ne_eq, not_true_eq_false, if_false, getElem?_child, put_above, pop_above]

theorem switch_named_val {c : List UInt8} {off st : Nat} {nm v : Val} {g : ValState} :
    Reader.switch c ⟨.named nm v, 2, 1, st⟩ ⟨off, below ++ [⟨.named nm v, 2, 1, st⟩, g], below.length + 1⟩ =
      .again ⟨off, below ++ [⟨.named nm g.val, 2, 2, st⟩], below.length⟩ := by
  rw [Reader.switch]
  simp only [Reader.readNamed, ne_eq, not_true_eq_false, if_false, getElem?_child, put_above,
    pop_above, complete_above]

theorem switch_list {c : List UInt8} {off n i st k m : Nat} {l : List (List UInt8 × Val)}
    {nm : List UInt8} {v : Val} (hi : i < n) :
    Reader.switch c ⟨.list l, n, i, st⟩
        ⟨off, below ++ [⟨.list l, n, i, st⟩, ⟨.named (.std_string nm) v, 2, k, m⟩], below.length + 1⟩ =
      .again ⟨off, below ++ [⟨.list (l ++ [(nm, v)]), n, i + 1, st⟩],
        if i + 1 = n then below.length else below.length + 1⟩ := by
  rw [Reader.switch]
  simp only [Reader.readList, if_pos hi, getElem?_child, put_above, pop_above, Val.toChars,
    Option.map_some]
  split
  · rw [complete_above]
  · rfl

/-! ## Heads -/

/-- The turn at a head. -/
theorem turn_head {c : List UInt8} {off : Nat} {vt : ValType} {n : Nat} {v : Val}
    (h : At c off (leBytes 8 vt.number ++ leBytes 8 n)) (hn : n < 2 ^ 64)
    (hv : make_value vt = .ok v) :
    Reader.turn c ⟨off, below, below.length⟩ =
      let r : Reader := ⟨off + 16, below ++ [⟨v, n, 0, 0⟩], below.length + 1⟩
      if isArray vt then .again r
      else if n = 0 then r.body c
      else match isAtomic vt with
        | .error e => .throws e
        | .ok true => r.body c
        | .ok false => .again r := by
  have h1 := readWord_at h.left vt.number_lt
  have h2 := readWord_at h.right (by norm_num at hn ⊢; exact hn)
  rw [length_leBytes] at h2
  unfold Reader.turn
  rw [if_pos rfl]
  simp only [h1, h2, ValType.ofNumber_number]
  generalize make_value vt = made at hv ⊢
  subst hv
  rfl

/-- The image of a head. -/
theorem tokenImage_value (vt : ValType) (n : Nat) (rest : List Token) :
    tokenImage (value vt (.word 8 n :: rest)) =
      (leBytes 8 vt.number ++ leBytes 8 n) ++ tokenImage rest := by
  simp [value, tokenImage, Token.image]

/-- A value that has values in it. -/
theorem turn_container {c : List UInt8} {off : Nat} {vt : ValType} {n : Nat} {v : Val}
    (h : At c off (tokenImage (value vt [.word 8 n]))) (hn : n < 2 ^ 64)
    (hv : make_value vt = .ok v)
    (ha : isArray vt = true ∨ isArray vt = false ∧ n ≠ 0 ∧ isAtomic vt = .ok false) :
    Reader.turn c ⟨off, below, below.length⟩ =
      .again ⟨off + (tokenImage (value vt [.word 8 n])).length,
        below ++ [⟨v, n, 0, 0⟩], below.length + 1⟩ := by
  rw [tokenImage_value, tokenImage_nil, List.append_nil] at h ⊢
  rw [turn_head h hn hv, List.length_append, length_leBytes, length_leBytes]
  rcases ha with ha | ⟨ha, h0, hat⟩
  · rw [if_pos ha]
  · rw [if_neg (by rw [ha]; exact Bool.false_ne_true)]
    simp only [if_neg h0, hat]

/-- The turn at the head of an atomic value. -/
theorem turn_atomic {c : List UInt8} {off : Nat} {vt : ValType} {n : Nat} {v : Val}
    (h : At c off (leBytes 8 vt.number ++ leBytes 8 n)) (hn : n < 2 ^ 64)
    (hv : make_value vt = .ok v) (ha : isArray vt = false) (hat : isAtomic vt = .ok true) :
    Reader.turn c ⟨off, below, below.length⟩ =
      Reader.body c ⟨off + 16, below ++ [⟨v, n, 0, 0⟩], below.length + 1⟩ := by
  rw [turn_head h hn hv, if_neg (by rw [ha]; exact Bool.false_ne_true)]
  simp only [hat, ite_self]

/-- The rest of a turn with the value on top of the stack. -/
theorem body_top {c : List UInt8} {off : Nat} {vs : ValState}
    (h : off ≠ c.length ∨ vs.n = vs.exp) :
    Reader.body c ⟨off, below ++ [vs], below.length + 1⟩ =
      Reader.switch c vs ⟨off, below ++ [vs], below.length + 1⟩ := by
  have hn : ¬ (off = c.length ∧ vs.n ≠ vs.exp ∧ below.length + 1 = (below ++ [vs]).length) := by
    rintro ⟨h1, h2, -⟩
    rcases h with h | h
    · exact h h1
    · exact h2 h
  rw [Reader.body]
  simp only [Nat.add_eq_zero_iff, one_ne_zero, and_false, if_false, Nat.add_sub_cancel,
    getElem?_above, if_neg hn]

/-- A turn with a child that is complete. -/
theorem turn_above {c : List UInt8} {off : Nat} {f g : ValState} :
    Reader.turn c ⟨off, below ++ [f, g], below.length + 1⟩ =
      Reader.switch c f ⟨off, below ++ [f, g], below.length + 1⟩ := by
  have hlen : ¬ below.length + 1 = (below ++ [f, g]).length := by
    rw [List.length_append, List.length_cons, List.length_singleton]
    omega
  rw [Reader.turn]
  simp only [if_neg hlen]
  rw [Reader.body]
  simp only [Nat.add_eq_zero_iff, one_ne_zero, and_false, if_false, Nat.add_sub_cancel,
    getElem?_above]
  rw [if_neg fun h => hlen h.2.2]

/-! ## Values -/

/-- Items that are whole leave a value on the stack. -/
def Reads (us : List (List Token)) (f : ValState) : Prop :=
  ∀ (R : Reader → List (List UInt8) → Prop) [Observes R] (below : List ValState)
    (buf : List UInt8) (ts : List Token) (more : List (List UInt8)),
    EachWhole (headerSize + buf.length) us →
      (Rcv R buf (us.flatten ++ ts) more below below.length ↔
        Rcv R (fill buf us) ts more (below ++ [f]) below.length)

/-- A value that is read above another one. -/
theorem Reads.child {us : List (List Token)} {f g : ValState} (h : Reads us g)
    (hw : EachWhole (headerSize + buf.length) us) :
    Rcv R buf (us.flatten ++ ts) more (below ++ [f]) (below.length + 1) ↔
      Rcv R (fill buf us) ts more (below ++ [f, g]) (below.length + 1) := by
  have hr := h R (below ++ [f]) buf ts more hw
  rwa [List.length_append, List.length_singleton, List.append_assoc] at hr

/-- The turn in which a child goes into its parent. -/
theorem rcv_above {f g : ValState}
    (ht : ∀ c off, Reader.switch c f ⟨off, below ++ [f, g], below.length + 1⟩ =
      .again ⟨off, ss, idx⟩) :
    Rcv R buf ts more (below ++ [f, g]) (below.length + 1) ↔ Rcv R buf ts more ss idx := by
  refine rcv_turn (Nat.succ_pos _) ?_ fun c off => turn_above.trans (ht c off)
  rw [List.length_append, List.length_cons, List.length_singleton]
  omega

/-- A value that is read in one turn. -/
theorem reads_single {u : List Token} {f : ValState} (hu : 0 < (tokenImage u).length)
    (ht : ∀ (below : List ValState) c off, At c off (tokenImage u) →
      Reader.turn c ⟨off, below, below.length⟩ =
        .again ⟨off + (tokenImage u).length, below ++ [f], below.length⟩) :
    Reads [u] f := by
  intro R _ below buf ts more h
  obtain ⟨hw, -⟩ := eachWhole_cons.mp h
  rw [List.flatten_singleton]
  exact rcv_item hw hu fun c off hat => ht below c off hat

theorem length_value_pos (vt : ValType) (n : Nat) (rest : List Token) :
    0 < (tokenImage (value vt (.word 8 n :: rest))).length := by
  rw [tokenImage_value, List.length_append, List.length_append, length_leBytes]
  omega

@[simp] theorem length_tokenImage_ints (v : List UInt64) :
    (tokenImage (v.map fun x => .word 8 x.toNat)).length = 8 * v.length := by
  induction v with
  | nil => rfl
  | cons x v ih =>
      rw [List.map_cons, tokenImage_cons, List.length_append, ih, List.length_cons, Token.image,
        length_leBytes]
      ring

/-- The words of a vector of integers. -/
theorem readInts_at {c : List UInt8} {v acc : List UInt64} {off : Nat}
    (h : At c off (tokenImage (v.map fun x => .word 8 x.toNat))) :
    Reader.readInts c v.length off acc = some (0, off + 8 * v.length, acc ++ v) := by
  induction v generalizing off acc with
  | nil => rw [List.append_nil]; rfl
  | cons x v ih =>
      rw [List.map_cons, tokenImage_cons, Token.image] at h
      have hx : x.toNat < 256 ^ 8 := by
        have := x.toNat_lt
        norm_num
        omega
      have hw := readWord_at h.left hx
      have hle := h.left.length_le
      have hr := h.right
      rw [length_leBytes] at hle hr
      rw [List.length_cons, Reader.readInts, if_pos (by omega), hw]
      simp only
      have hoff : off + 8 + 8 * v.length = off + 8 * (v.length + 1) := by omega
      rw [ih hr, hoff, List.append_assoc, UInt64.ofNat_toNat]
      rfl

theorem reads_std_int (v : List UInt64) (hv : v.length < 2 ^ 64) :
    Reads [value .std_int (intsTokens v)] ⟨.std_int v, v.length, v.length, 0⟩ := by
  refine reads_single (length_value_pos _ _ _) fun below c off hat => ?_
  rw [intsTokens, tokenImage_value] at hat ⊢
  have hr := hat.right
  have hle := hr.length_le
  simp only [List.length_append, length_leBytes, length_tokenImage_ints, Nat.reduceAdd] at hr hle ⊢
  rw [turn_atomic hat.left hv rfl rfl rfl, body_top]
  · simp only [Reader.switch, Nat.sub_zero, readInts_at hr, List.nil_append, Reader.put, Reader.complete,
      Nat.add_sub_cancel, set_above, if_true, Nat.add_assoc]
  · by_cases h0 : v.length = 0
    · exact .inr h0.symm
    · left
      omega

/-- A value of characters that is there. -/
theorem reads_chars {vt : ValType} {v : Val} {join : List UInt8 → Val} {s : List UInt8}
    (hv : make_value vt = .ok v) (ha : isArray vt = false) (hat : isAtomic vt = .ok true)
    (hswitch : ∀ c r, Reader.switch c ⟨v, s.length, 0, 0⟩ r =
      r.readChars c ⟨v, s.length, 0, 0⟩ join) (hs : s.length < CHUNKSZ) :
    Reads [value vt (stringTokens s)] ⟨join s, s.length, getAlignedLength s.length, 1⟩ := by
  refine reads_single (length_value_pos _ _ _) fun below c off hoff => ?_
  have hal : s.length ≤ getAlignedLength s.length := by
    rw [getAlignedLength_of_le (by simp only [CHUNKSZ] at hs; omega)]
    exact le_aligned _
  rw [stringTokens, tokenImage_value] at hoff ⊢
  have hr := hoff.right
  rw [tokenImage_cons, tokenImage_nil, List.append_nil, Token.image] at hr ⊢
  have hsl := hr.left.slice
  have hle := hr.length_le
  simp only [List.length_append, length_leBytes, List.length_replicate, Nat.reduceAdd] at hsl hle ⊢
  rw [turn_atomic hoff.left (by simp only [CHUNKSZ] at hs; omega) hv ha hat, body_top]
  · have hmin : min s.length (c.length - (off + 16)) = s.length := by omega
    simp only [hswitch, Reader.readChars, if_pos (show off + 16 ≤ c.length by omega), hmin,
      if_neg (show ¬ c.length < off + 16 + s.length by omega), hsl, Nat.zero_add, if_pos hal,
      Reader.put, Reader.complete, Nat.add_sub_cancel, set_above]
    congr 2
    omega
  · by_cases h0 : s.length = 0
    · exact .inr h0.symm
    · left
      show off + 16 ≠ c.length
      omega

theorem reads_std_string (s : List UInt8) (hs : s.length < CHUNKSZ) :
    Reads [value .std_string (stringTokens s)]
      ⟨.std_string s, s.length, getAlignedLength s.length, 1⟩ :=
  @reads_chars .std_string _ Val.std_string s rfl rfl rfl (fun _ _ => rfl) hs

/-- A pair of two values. -/
theorem reads_pair {us vs : List (List Token)} {f g : ValState} (hn : Reads us f) (hv : Reads vs g) :
    Reads (value .named [.word 8 2] :: (us ++ vs)) ⟨.named f.val g.val, 2, 2, 0⟩ := by
  intro R _ below buf ts more h
  obtain ⟨hw, h⟩ := eachWhole_cons.mp h
  obtain ⟨hname, h⟩ := eachWhole_append.mp h
  rw [List.flatten_cons, List.append_assoc, rcv_item hw (length_value_pos _ _ _)
    fun c off hat => turn_container hat (by norm_num) rfl (.inr ⟨rfl, by norm_num, rfl⟩)]
  rw [List.flatten_append, List.append_assoc, hn.child hname,
    rcv_above fun c off => switch_named_name, hv.child h, rcv_above fun c off => switch_named_val,
    fill, fill_append]

/-- A pair of a name and a value. -/
theorem reads_named {name : List UInt8} {us : List (List Token)} {f : ValState}
    (hn : name.length < CHUNKSZ) (hv : Reads us f) :
    Reads (namedItems name us) ⟨.named (.std_string name) f.val, 2, 2, 0⟩ :=
  reads_pair (reads_std_string name hn) hv

/-- The rest of a list. -/
theorem rcv_list {l : List (List UInt8 × List (List Token) × ValState)} (hne : l ≠ [])
    (hl : ∀ x ∈ l, x.1.length < CHUNKSZ ∧ Reads x.2.1 x.2.2) {pre : List (List UInt8 × Val)}
    {n i st : Nat} (hn : i + l.length = n)
    (hw : EachWhole (headerSize + buf.length) (l.flatMap fun x => namedItems x.1 x.2.1)) :
    Rcv R buf ((l.flatMap fun x => namedItems x.1 x.2.1).flatten ++ ts) more
        (below ++ [⟨.list pre, n, i, st⟩]) (below.length + 1) ↔
      Rcv R (fill buf (l.flatMap fun x => namedItems x.1 x.2.1)) ts more
        (below ++ [⟨.list (pre ++ l.map fun x => (x.1, x.2.2.val)), n, n, st⟩]) below.length := by
  induction l generalizing buf pre i with
  | nil => exact absurd rfl hne
  | cons x l ih =>
      obtain ⟨hx, hl⟩ := List.forall_mem_cons.mp hl
      rw [List.flatMap_cons] at hw ⊢
      obtain ⟨hwx, hw⟩ := eachWhole_append.mp hw
      rw [List.length_cons] at hn
      rw [List.flatten_append, List.append_assoc, (reads_named hx.1 hx.2).child hwx,
        rcv_above fun c off => switch_list (by omega), fill_append, List.map_cons]
      by_cases hnil : l = []
      · subst hnil
        rw [if_pos (by simpa using hn)]
        simp only [List.length_nil, Nat.zero_add] at hn
        rw [hn]
        rfl
      · have hpos := List.length_pos_of_ne_nil hnil
        rw [if_neg (by omega), ih hnil hl (by omega) hw, List.append_assoc]
        rfl

/-- A list of values. -/
theorem reads_list {l : List (List UInt8 × List (List Token) × ValState)} (hlen : l.length < 2 ^ 64)
    (hl : ∀ x ∈ l, x.1.length < CHUNKSZ ∧ Reads x.2.1 x.2.2) :
    Reads (listItems (l.map fun x => (x.1, x.2.1)))
      ⟨.list (l.map fun x => (x.1, x.2.2.val)), l.length, l.length, 0⟩ := by
  by_cases hnil : l = []
  · subst hnil
    refine reads_single (length_value_pos _ _ _) fun below c off hat => ?_
    rw [tokenImage_value, tokenImage_nil, List.append_nil] at hat ⊢
    rw [turn_head hat (Nat.two_pow_pos 64) rfl, List.length_append, length_leBytes, length_leBytes]
    show Reader.body c ⟨off + 16, below ++ [⟨.list [], 0, 0, 0⟩], below.length + 1⟩ = _
    rw [body_top (.inr rfl)]
    rfl
  · intro R _ below buf ts more h
    rw [listItems, List.length_map] at h ⊢
    obtain ⟨hw, h⟩ := eachWhole_cons.mp h
    rw [List.flatMap_map] at h ⊢
    have h0 : l.length ≠ 0 := fun h0 => hnil (List.length_eq_zero_iff.mp h0)
    rw [List.flatten_cons, List.append_assoc, rcv_item hw (length_value_pos _ _ _)
      fun c off hat => turn_container hat hlen rfl (.inr ⟨rfl, h0, rfl⟩),
      rcv_list hnil hl (Nat.zero_add _) h]
    rfl

/-! ## The list of an array -/

/-- The list as it is read. -/
def VArray.metaVal (a : VArray) : Val :=
  .list
    [([], .std_int a.dim),
      ([], .list (a.names.map fun nm => ([], .list (nm.map fun s => ([], .std_string s.chars))))),
      ([], .std_int (a.v.map fun c => if c.ordered then 1 else 0))]

theorem reads_strings {nm : List ZString} (hn : nm.length < 2 ^ 64) :
    Reads (listItems (nm.map fun s => ([], [value .std_string (stringTokens s.chars)])))
      ⟨.list (nm.map fun s => ([], .std_string s.chars)), nm.length, nm.length, 0⟩ := by
  have hl := @reads_list (nm.map fun s => ([], [value .std_string (stringTokens s.chars)],
    ⟨.std_string s.chars, s.chars.length, getAlignedLength s.chars.length, 1⟩))
  rw [List.length_map, List.map_map, List.map_map] at hl
  refine hl hn fun x hx => ?_
  obtain ⟨s, -, rfl⟩ := List.mem_map.mp hx
  have hs : s.chars.length < CHUNKSZ := by
    have := s.short
    simp only [Arr.STRING_SIZE] at this
    simp only [CHUNKSZ]
    omega
  exact ⟨by simp [CHUNKSZ], reads_std_string s.chars hs⟩

theorem VArray.Valid.length_names {a : VArray} (h : a.Valid) {nm : List ZString}
    (hnm : nm ∈ a.names) : nm.length < 2 ^ 64 := by
  obtain ⟨j, hj, rfl⟩ := List.getElem_of_mem hnm
  have hj' : j < a.dim.length := h.names ▸ hj
  rcases h.named j hj a.dim[j] (List.getElem?_eq_getElem hj') with h0 | hlen
  · rw [h0]
    exact Nat.two_pow_pos 64
  · rw [hlen]
    exact UInt64.toNat_lt _

/-- The extents, names and flags of an array arrive. -/
theorem VArray.Valid.reads_meta {a : VArray} (h : a.Valid) :
    Reads a.metaItems ⟨a.metaVal, 3, 3, 0⟩ := by
  have h0 : ([] : List UInt8).length < CHUNKSZ := by simp [CHUNKSZ]
  have hnames := @reads_list (a.names.map fun nm =>
    ([], listItems (nm.map fun s => ([], [value .std_string (stringTokens s.chars)])),
      ⟨.list (nm.map fun s => ([], .std_string s.chars)), nm.length, nm.length, 0⟩))
  rw [List.length_map, List.map_map, List.map_map] at hnames
  have hnames := hnames (h.names ▸ h.dims) fun x hx => by
    obtain ⟨nm, hnm, rfl⟩ := List.mem_map.mp hx
    exact ⟨h0, reads_strings (h.length_names hnm)⟩
  have hl := @reads_list
    [([], [value .std_int (intsTokens a.dim)], ⟨.std_int a.dim, a.dim.length, a.dim.length, 0⟩),
      ([], _, _),
      ([], [value .std_int (intsTokens (a.v.map fun c => if c.ordered then 1 else 0))],
        ⟨.std_int (a.v.map fun c => if c.ordered then 1 else 0), a.v.length, a.v.length, 0⟩)]
    (by norm_num) (by
      intro x hx
      simp only [List.mem_cons, List.not_mem_nil, or_false] at hx
      rcases hx with rfl | rfl | rfl
      · exact ⟨h0, reads_std_int _ h.dims⟩
      · exact ⟨h0, hnames⟩
      · refine ⟨h0, ?_⟩
        have hf := reads_std_int (a.v.map fun c => if c.ordered then 1 else 0)
          (by rw [List.length_map]; exact h.columns)
        rwa [List.length_map] at hf)
  exact hl

end Ztsdb.Net
