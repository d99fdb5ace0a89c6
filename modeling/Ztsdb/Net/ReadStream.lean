import Mathlib
import Ztsdb.Net.ReadValue

/-!
# A reader and its chunks

`chunks` says how tokens fall into chunks, and `Rcv` that a reader gets through them from
where it is. Every turn of the reader takes `Rcv` from one place to a later one. `Reads`
puts this together for a whole value: items that are whole leave it complete on the stack,
wherever chunks begin between them.
-/

namespace Ztsdb.Net

open Ztsdb.Lib Ztsdb.Arr
open AppendMessage (getAlignedLength)

/-! ## Tokens and chunks -/

/-- The bytes of tokens that go into one chunk. -/
def tokenImage (ts : List Token) : List UInt8 := ts.flatMap Token.image

@[simp] theorem tokenImage_nil : tokenImage [] = [] := rfl

@[simp] theorem tokenImage_cons (t : Token) (ts : List Token) :
    tokenImage (t :: ts) = t.image ++ tokenImage ts := rfl

@[simp] theorem tokenImage_append (ts us : List Token) :
    tokenImage (ts ++ us) = tokenImage ts ++ tokenImage us := List.flatMap_append

/-- The chunks of tokens, the first of them behind what is in it. -/
def chunks : List UInt8 → List Token → List (List UInt8)
  | buf, [] => [buf]
  | buf, t :: ts =>
    if t.Breaks (headerSize + buf.length) then buf :: chunks t.image ts
    else chunks (buf ++ t.image) ts

/-- The first chunk goes on from what is in it. -/
theorem chunks_head (buf : List UInt8) (ts : List Token) :
    ∃ tail cs, chunks buf ts = (buf ++ tail) :: cs := by
  induction ts generalizing buf with
  | nil => exact ⟨[], [], by rw [chunks, List.append_nil]⟩
  | cons t ts ih =>
      rw [chunks]
      split
      · exact ⟨[], chunks t.image ts, by rw [List.append_nil]⟩
      · obtain ⟨tail, cs, h⟩ := ih (buf ++ t.image)
        exact ⟨t.image ++ tail, cs, by rw [h, List.append_assoc]⟩

/-- Tokens that go into the chunk. -/
theorem chunks_whole {buf : List UInt8} {ts : List Token} (us : List Token)
    (h : Whole (headerSize + buf.length) ts) :
    chunks buf (ts ++ us) = chunks (buf ++ tokenImage ts) us := by
  induction ts generalizing buf with
  | nil => rw [List.nil_append, tokenImage_nil, List.append_nil]
  | cons t ts ih =>
      obtain ⟨hb, -, hts⟩ := h
      rw [List.cons_append, chunks, if_neg hb, ih, tokenImage_cons, List.append_assoc]
      rw [List.length_append, ← Nat.add_assoc]
      exact hts

theorem whole_append {off : Nat} {ts us : List Token} :
    Whole off (ts ++ us) ↔ Whole off ts ∧ Whole (off + (tokenImage ts).length) us := by
  induction ts generalizing off with
  | nil => exact ⟨fun h => ⟨trivial, h⟩, fun h => h.2⟩
  | cons t ts ih =>
      rw [List.cons_append, Whole, Whole, ih, tokenImage_cons, List.length_append, Nat.add_assoc,
        and_assoc, and_assoc]

/-- Every string among tokens fits where it is written. -/
def AllFit : Nat → List Token → Prop
  | _, [] => True
  | off, t :: ts => t.Fits off ∧ AllFit (t.next off) ts

theorem Whole.allFit {off : Nat} {ts : List Token} (h : Whole off ts) : AllFit off ts := by
  induction ts generalizing off with
  | nil => trivial
  | cons t ts ih =>
      obtain ⟨hb, hf, hts⟩ := h
      refine ⟨hf, ?_⟩
      rw [Token.next, if_neg hb]
      exact ih hts

/-- Characters that fit are copied behind what is there. -/
theorem Encode.copyString_fits {t : List UInt8} {ec : Encode}
    (h : (Token.chars t).Fits ec.offset) :
    Encode.copyString t t.length ec = some { ec with buf := ec.buf ++ (Token.chars t).image } := by
  rw [Encode.copyString]
  rcases h with rfl | ⟨hlt, hle⟩
  · simp [Token.image, getAlignedLength]
  · by_cases h0 : t.length = 0
    · rw [List.length_eq_zero_iff.mp h0]
      simp [Token.image, getAlignedLength]
    · simp only [if_neg h0, if_pos hlt, if_neg (Nat.not_lt.mpr hle), List.take_length]
      rfl

theorem Encode.copyString_sent {t : List UInt8} {n : Nat} {ec ec' : Encode}
    (h : Encode.copyString t n ec = some ec') : ∃ more, ec'.sent = ec.sent ++ more := by
  induction n using Nat.strong_induction_on generalizing ec with
  | _ n ih =>
      rw [Encode.copyString] at h
      simp only at h
      split at h
      · cases h
        exact ⟨[], by rw [List.append_nil]⟩
      · split at h
        · split at h
          · cases h
          · cases h
            exact ⟨[], by rw [List.append_nil]⟩
        · split at h
          · cases h
          · obtain ⟨more, hm⟩ := ih _ (by omega) h
            exact ⟨ec.buf :: more, by rw [hm, List.append_assoc]; rfl⟩

/-- Characters that do not fit: the buffer is sent as it is before them, if anything is. -/
theorem Encode.copyString_unfit {t : List UInt8} {ec ec' : Encode}
    (h : ¬ (Token.chars t).Fits ec.offset)
    (hc : Encode.copyString t t.length ec = some ec') :
    ∃ more, ec'.sent = ec.sent ++ ec.buf :: more := by
  have hne : t ≠ [] := fun hnil => h (.inl hnil)
  have h0 : t.length ≠ 0 := fun h0 => hne (List.length_eq_zero_iff.mp h0)
  rw [Encode.copyString] at hc
  simp only [if_neg h0] at hc
  split at hc
  · next hlt =>
      split at hc
      · cases hc
      · next hle => exact absurd (.inr ⟨hlt, Nat.not_lt.mp hle⟩) h
  · split at hc
    · cases hc
    · obtain ⟨more, hm⟩ := Encode.copyString_sent hc
      exact ⟨more, by rw [hm, List.append_assoc]; rfl⟩

/-- What was sent stays sent. -/
theorem writeTokens_sent {ts : List Token} {ec ec' : Encode} (h : writeTokens ts ec = some ec') :
    ∃ more, ec'.sent = ec.sent ++ more := by
  induction ts generalizing ec with
  | nil =>
      cases h
      exact ⟨[], by rw [List.append_nil]⟩
  | cons t ts ih =>
      rw [writeTokens] at h
      obtain ⟨ec₁, h₁, h⟩ := Option.bind_eq_some_iff.mp h
      obtain ⟨more, hm⟩ := ih h
      have hsent : ∃ more, ec₁.sent = ec.sent ++ more := by
        cases t with
        | room =>
            cases h₁
            split
            · exact ⟨[ec.buf], rfl⟩
            · exact ⟨[], by rw [List.append_nil]⟩
        | word k n =>
            cases h₁
            rw [Encode.put]
            split
            · exact ⟨[ec.buf], rfl⟩
            · exact ⟨[], by rw [List.append_nil]⟩
        | chars t => exact Encode.copyString_sent h₁
      obtain ⟨more₁, hm₁⟩ := hsent
      exact ⟨more₁ ++ more, by rw [hm, hm₁, List.append_assoc]⟩

theorem writeTokens_append (ts us : List Token) (ec : Encode) :
    writeTokens (ts ++ us) ec = (writeTokens ts ec).bind (writeTokens us) := by
  induction ts generalizing ec with
  | nil => rfl
  | cons t ts ih =>
      rw [List.cons_append, writeTokens, writeTokens]
      cases t.write ec with
      | none => rfl
      | some ec => exact ih ec

/-- What the encoder sends for a token that fits. -/
theorem Token.write_fits {t : Token} {ec : Encode} (h : t.Fits ec.offset) :
    t.write ec = some (if t.Breaks ec.offset then ⟨ec.sent ++ [ec.buf], t.image⟩
      else { ec with buf := ec.buf ++ t.image }) := by
  cases t with
  | room =>
      show some (if CHUNKSZ ≤ ec.offset + 16 then ec.flush else ec) = _
      congr 1
      by_cases hb : CHUNKSZ ≤ ec.offset + 16
      · rw [if_pos hb, if_pos (show Token.room.Breaks ec.offset from hb)]
        rfl
      · rw [if_neg hb, if_neg (show ¬ Token.room.Breaks ec.offset from hb)]
        simp [Token.image]
  | word k n =>
      show some (ec.put k n) = _
      congr 1
      by_cases hb : CHUNKSZ < ec.offset + k
      · simp only [Encode.put, if_pos hb, if_pos (show (Token.word k n).Breaks ec.offset from hb)]
        rfl
      · simp only [Encode.put, if_neg hb, if_neg (show ¬ (Token.word k n).Breaks ec.offset from hb)]
        rfl
  | chars t =>
      rw [if_neg (show ¬ (Token.chars t).Breaks ec.offset from id)]
      exact Encode.copyString_fits h

/-- What the encoder sends. -/
theorem writeTokens_chunks {ts : List Token} {sent : List (List UInt8)} {buf : List UInt8}
    (h : AllFit (headerSize + buf.length) ts) :
    ∃ ec, writeTokens ts ⟨sent, buf⟩ = some ec ∧ ec.sent ++ [ec.buf] = sent ++ chunks buf ts := by
  induction ts generalizing sent buf with
  | nil => exact ⟨_, rfl, rfl⟩
  | cons t ts ih =>
      obtain ⟨hf, hts⟩ := h
      have hw := @Token.write_fits t ⟨sent, buf⟩ hf
      rw [Token.next] at hts
      rw [writeTokens, chunks, hw]
      by_cases hb : t.Breaks (headerSize + buf.length)
      · rw [if_pos hb] at hts
        obtain ⟨ec, hec, hs⟩ := @ih (sent ++ [buf]) t.image hts
        rw [if_pos hb]
        refine ⟨ec, ?_, ?_⟩
        · rw [if_pos (show t.Breaks (Encode.offset ⟨sent, buf⟩) from hb)]
          exact hec
        · rw [hs, List.append_assoc, List.singleton_append]
      · rw [if_neg hb] at hts
        obtain ⟨ec, hec, hs⟩ := @ih sent (buf ++ t.image)
          (by rw [List.length_append, ← Nat.add_assoc]; exact hts)
        rw [if_neg hb]
        refine ⟨ec, ?_, hs⟩
        rw [if_neg (show ¬ t.Breaks (Encode.offset ⟨sent, buf⟩) from hb)]
        exact hec

/-! ## The loop -/

/-- `readValue` ends so. -/
def Ends (c : List UInt8) (r : Reader) (e : ReadEnd) : Prop := ∃ k, readValue c k r = some e

theorem ends_stop {c : List UInt8} {r : Reader} (hg : ¬ r.Goes c) (e : ReadEnd) :
    Ends c r e ↔ e = .returns r := by
  constructor
  · rintro ⟨k, hk⟩
    cases k with
    | zero => cases hk
    | succ k =>
        rw [readValue, if_neg hg] at hk
        exact (Option.some.inj hk).symm
  · rintro rfl
    exact ⟨1, by rw [readValue, if_neg hg]⟩

/-- What is left to be shown after a turn. -/
def Turn.Then (P : Reader → Prop) (Q : Reader → Prop) : Turn → Prop
  | .again r => P r
  | .leaves r => Q r
  | .throws _ => True
  | .faults => False
  | .spins => False

theorem ends_again {c : List UInt8} {r r' : Reader} (hg : r.Goes c) (ht : r.turn c = .again r')
    (e : ReadEnd) : Ends c r e ↔ Ends c r' e := by
  constructor
  · rintro ⟨k, hk⟩
    cases k with
    | zero => cases hk
    | succ k =>
        rw [readValue, if_pos hg, ht] at hk
        exact ⟨k, hk⟩
  · rintro ⟨k, hk⟩
    exact ⟨k + 1, by rw [readValue, if_pos hg, ht]; exact hk⟩

/-- The other ends of a turn are those of `readValue`. -/
theorem ends_turn {c : List UInt8} {r : Reader} {o : Option ReadEnd}
    (ht : ∀ k, readValue c (k + 1) r = o) (e : ReadEnd) : Ends c r e ↔ o = some e := by
  constructor
  · rintro ⟨k, hk⟩
    cases k with
    | zero => cases hk
    | succ k => rwa [ht] at hk
  · intro ho
    exact ⟨1, by rw [ht, ho]⟩

theorem receives_cons (r : Reader) (c : List UInt8) (cs : List (List UInt8)) :
    Receives r (c :: cs) ↔
      (∃ e, Ends c r (.throws e)) ∨ ∃ r', Ends c r (.returns r') ∧ Receives { r' with off := 0 } cs := by
  rw [Receives]
  constructor
  · rintro (⟨k, e, h⟩ | ⟨k, r', h, hr⟩)
    · exact .inl ⟨e, k, h⟩
    · exact .inr ⟨r', ⟨k, h⟩, hr⟩
  · rintro (⟨e, k, h⟩ | ⟨r', ⟨k, h⟩, hr⟩)
    · exact .inl ⟨k, e, h⟩
    · exact .inr ⟨k, r', h, hr⟩

/-- Outside the loop the reader waits for the next chunk. -/
theorem receives_stop {c : List UInt8} {r : Reader} (hg : ¬ r.Goes c) (cs : List (List UInt8)) :
    Receives r (c :: cs) ↔ Receives { r with off := 0 } cs := by
  rw [receives_cons]
  simp only [ends_stop hg, reduceCtorEq, exists_false, false_or, ReadEnd.returns.injEq]
  exact ⟨fun ⟨r', h, hr⟩ => h ▸ hr, fun h => ⟨r, rfl, h⟩⟩

/-- One turn. -/
theorem receives_turn {c : List UInt8} {r : Reader} (hg : r.Goes c) (cs : List (List UInt8)) :
    Receives r (c :: cs) ↔ (r.turn c).Then (fun r' => Receives r' (c :: cs))
      (fun r' => Receives { r' with off := 0 } cs) := by
  cases ht : r.turn c with
  | again r' =>
      show _ ↔ Receives r' (c :: cs)
      rw [receives_cons, receives_cons]
      simp only [ends_again hg ht]
  | leaves r' =>
      have he := @ends_turn c r (some (.returns r')) fun k => by rw [readValue, if_pos hg, ht]
      rw [receives_cons]
      simp only [he, Option.some.injEq, reduceCtorEq, exists_false, false_or, ReadEnd.returns.injEq]
      exact ⟨fun ⟨r₁, h, hr⟩ => h ▸ hr, fun h => ⟨r', rfl, h⟩⟩
  | throws e =>
      have he := @ends_turn c r (some (.throws e)) fun k => by rw [readValue, if_pos hg, ht]
      rw [receives_cons]
      exact iff_of_true (.inl ⟨e, (he _).mpr rfl⟩) trivial
  | faults =>
      have he := @ends_turn c r (some .faults) fun k => by rw [readValue, if_pos hg, ht]
      rw [receives_cons]
      simp only [he]
      simp [Turn.Then]
  | spins =>
      have he := @ends_turn c r none fun k => by rw [readValue, if_pos hg, ht]
      rw [receives_cons]
      simp only [he]
      simp [Turn.Then]

/-- What is said of a reader and its chunks is the same before and after a turn. -/
class Observes (R : Reader → List (List UInt8) → Prop) : Prop where
  stop {c : List UInt8} {r : Reader} (hg : ¬ r.Goes c) (cs : List (List UInt8)) :
    R r (c :: cs) ↔ R { r with off := 0 } cs
  again {c : List UInt8} {r r' : Reader} (hg : r.Goes c) (ht : r.turn c = .again r')
    (cs : List (List UInt8)) : R r (c :: cs) ↔ R r' (c :: cs)
  leaves {c : List UInt8} {r r' : Reader} (hg : r.Goes c) (ht : r.turn c = .leaves r')
    (cs : List (List UInt8)) : R r (c :: cs) ↔ R { r' with off := 0 } cs

instance observesReceives : Observes Receives where
  stop := receives_stop
  again hg ht cs := by
    rw [receives_turn hg, ht]
    rfl
  leaves hg ht cs := by
    rw [receives_turn hg, ht]
    rfl

end Ztsdb.Net
