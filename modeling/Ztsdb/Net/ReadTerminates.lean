import Mathlib
import Ztsdb.Net.ReadArrays

/-!
# Reading the chunks of an array

An array is sent, and each of its chunks read. When the list before the elements is whole,
every call of `readValue` ends exactly when the elements are whole too.
-/

namespace Ztsdb.Net

open Ztsdb.Lib Ztsdb.Arr
open AppendMessage (getAlignedLength)

/-! ## What the encoder sends -/

theorem Token.Breaks.fits {t : Token} {off : Nat} (h : t.Breaks off) : t.Fits off := by
  cases t with
  | room => trivial
  | word k n => trivial
  | chars t => exact h.elim

/-- The strings of items that are whole fit. -/
theorem allFit_items {off : Nat} {us : List (List Token)} {ts : List Token}
    (h : EachWhole off us) (hts : AllFit (endOf off us) ts) : AllFit off (us.flatten ++ ts) := by
  have hwhole {off : Nat} {u rest : List Token} (hu : Whole off u)
      (hr : AllFit (off + (tokenImage u).length) rest) : AllFit off (u ++ rest) := by
    induction u generalizing off with
    | nil => exact hr
    | cons t u ih =>
        obtain ⟨hb, hf, hu⟩ := hu
        refine ⟨hf, ?_⟩
        rw [Token.next, if_neg hb]
        rw [tokenImage_cons, List.length_append, ← Nat.add_assoc] at hr
        exact ih hu hr
  induction us generalizing off with
  | nil => exact hts
  | cons u us ih =>
      obtain ⟨hu, hus⟩ := h
      have hr := ih hus hts
      rw [List.flatten_cons, List.append_assoc]
      cases u with
      | nil => exact hr
      | cons t u =>
          by_cases hb : t.Breaks off
          · rw [beginOf, if_pos hb] at hu hr
            have h := hwhole hu hr
            refine ⟨hb.fits, ?_⟩
            rw [Token.next, if_pos hb]
            obtain ⟨-, h⟩ := h
            rwa [Token.next, if_neg hu.1] at h
          · rw [beginOf, if_neg hb] at hu hr
            exact hwhole hu hr

/-- Tokens that are words. -/
def Words (ts : List Token) : Prop := ∀ t ∈ ts, ∃ k n, t = .word k n ∧ 0 < k ∧ k ≤ 8

theorem Words.allFit {ts : List Token} (h : Words ts) (off : Nat) : AllFit off ts := by
  induction ts generalizing off with
  | nil => trivial
  | cons t ts ih =>
      obtain ⟨ht, hts⟩ := List.forall_mem_cons.mp h
      obtain ⟨k, n, rfl, -⟩ := ht
      exact ⟨trivial, ih hts _⟩

theorem Elt.words_tokens {x : Elt} {t : EltType} (h : x.HasType t) (ht : t ≠ .string) :
    Words x.tokens := by
  cases x with
  | string s => exact absurd h ht
  | _ =>
      intro t ht
      simp only [Elt.tokens, List.mem_cons, List.not_mem_nil, or_false] at ht
      rcases ht with rfl | rfl | rfl | rfl
      all_goals exact ⟨_, _, rfl, by norm_num, by norm_num⟩

/-- When characters do not fit, the chunk that ends before them is sent. -/
theorem writeTokens_unfit {ts us : List Token} {s buf : List UInt8} {ec : Encode}
    (hts : AllFit (headerSize + buf.length) ts)
    (hs : ∀ ec', writeTokens ts ⟨[], buf⟩ = some ec' → ¬ (Token.chars s).Fits ec'.offset)
    (h : writeTokens (ts ++ .chars s :: us) ⟨[], buf⟩ = some ec) :
    ∃ more, ec.sent ++ [ec.buf] = chunks buf ts ++ more := by
  obtain ⟨ec₁, h₁, hc⟩ := @writeTokens_chunks ts [] buf hts
  rw [writeTokens_append, h₁, Option.bind_some, writeTokens] at h
  obtain ⟨ec₂, h₂, h⟩ := Option.bind_eq_some_iff.mp h
  obtain ⟨more, hm⟩ := Encode.copyString_unfit (hs ec₁ h₁) h₂
  obtain ⟨more', hm'⟩ := writeTokens_sent h
  refine ⟨more ++ more' ++ [ec.buf], ?_⟩
  rw [List.nil_append] at hc
  rw [← hc, hm', hm]
  simp

/-! ## Elements that are not whole -/

/-- The first element that is not whole. -/
theorem exists_not_whole {xs : List Elt} {buf : List UInt8}
    (h : ¬ EachWhole (headerSize + buf.length) (xs.map Elt.tokens)) :
    ∃ ys x zs, xs = ys ++ x :: zs ∧ EachWhole (headerSize + buf.length) (ys.map Elt.tokens) ∧
      ¬ Whole (headerSize + (base (fill buf (ys.map Elt.tokens)) x.tokens).length) x.tokens := by
  induction xs generalizing buf with
  | nil => exact absurd trivial h
  | cons x xs ih =>
      by_cases hx : Whole (headerSize + (base buf x.tokens).length) x.tokens
      · rw [List.map_cons, eachWhole_cons] at h
        obtain ⟨ys, y, zs, rfl, hys, hy⟩ := ih fun hxs => h ⟨hx, hxs⟩
        exact ⟨x :: ys, y, zs, rfl, eachWhole_cons.mpr ⟨hx, hys⟩, hy⟩
      · exact ⟨[], x, xs, rfl, trivial, hx⟩

/-- A chunk ends with a part of tokens that are not whole. -/
theorem chunks_cut {buf : List UInt8} {u : List Token} (hu : Words u) (us : List Token)
    (h : ¬ Whole (headerSize + buf.length) u) :
    ∃ p cs, chunks buf (u ++ us) = (buf ++ p) :: cs ∧ p.length < (tokenImage u).length ∧
      ((∀ t ∈ u.head?, ¬ t.Breaks (headerSize + buf.length)) → 0 < p.length) := by
  induction u generalizing buf with
  | nil => exact absurd trivial h
  | cons t u ih =>
      obtain ⟨ht, hws⟩ := List.forall_mem_cons.mp hu
      obtain ⟨k, n, rfl, hk, -⟩ := ht
      have hlen : (Token.word k n).image.length = k := length_leBytes k n
      rw [tokenImage_cons, List.length_append, hlen, List.cons_append, chunks]
      by_cases hb : (Token.word k n).Breaks (headerSize + buf.length)
      · refine ⟨[], _, by rw [if_pos hb, List.append_nil], by simp only [List.length_nil]; omega, ?_⟩
        intro hnb
        exact absurd hb (hnb _ rfl)
      · rw [if_neg hb]
        obtain ⟨p, cs, hc, hp, -⟩ := @ih (buf ++ (Token.word k n).image) hws fun hw => h ⟨hb, trivial, by
          rwa [List.length_append, ← Nat.add_assoc] at hw⟩
        refine ⟨(Token.word k n).image ++ p, cs, by rw [hc, List.append_assoc], ?_, fun _ => ?_⟩
        · rw [List.length_append, hlen]
          omega
        · rw [List.length_append, hlen]
          omega

/-- An item goes on in the chunk or begins a new one. -/
theorem chunks_base (buf : List UInt8) {t : Token} (ts : List Token)
    (h : ¬ t.Breaks (headerSize + ([] : List UInt8).length)) :
    base buf (t :: ts) = buf ∨
      base buf (t :: ts) = [] ∧ chunks buf (t :: ts) = buf :: chunks [] (t :: ts) := by
  by_cases hb : t.Breaks (headerSize + buf.length)
  · rw [base, if_pos hb, chunks, if_pos hb, chunks, if_neg h, List.nil_append]
    exact .inr ⟨rfl, rfl⟩
  · rw [base, if_neg hb]
    exact .inl rfl

theorem not_breaks_nil {k n : Nat} (h : k ≤ 8) :
    ¬ (Token.word k n).Breaks (headerSize + ([] : List UInt8).length) := by
  show ¬ CHUNKSZ < headerSize + 0 + k
  simp only [CHUNKSZ, headerSize]
  omega

/-- The first token of an item does not break behind what is in front of it. -/
theorem not_breaks_base {buf : List UInt8} {t : Token} {ts : List Token}
    (h : ¬ t.Breaks (headerSize + ([] : List UInt8).length)) :
    ¬ t.Breaks (headerSize + (base buf (t :: ts)).length) := by
  by_cases hb : t.Breaks (headerSize + buf.length)
  · rwa [base, if_pos hb]
  · rwa [base, if_neg hb]

/-- A chunk ends with a part of the tokens, in the chunk that is filled or in the next. -/
def EndsWith (buf : List UInt8) (ts : List Token) (p : List UInt8) : Prop :=
  ∃ cs, chunks buf ts = (buf ++ p) :: cs ∨ chunks buf ts = buf :: chunks [] ts ∧ chunks [] ts = p :: cs

theorem endsWith_base {buf : List UInt8} {t : Token} {ts : List Token} {p : List UInt8}
    {cs : List (List UInt8)} (ht : ¬ t.Breaks (headerSize + ([] : List UInt8).length))
    (h : chunks (base buf (t :: ts)) (t :: ts) = (base buf (t :: ts) ++ p) :: cs) :
    EndsWith buf (t :: ts) p := by
  refine ⟨cs, ?_⟩
  rcases chunks_base buf ts ht with hb | ⟨hb, hc⟩
  · rw [hb] at h
    exact .inl h
  · rw [hb, List.nil_append] at h
    exact .inr ⟨hc, h⟩

theorem base_append (buf : List UInt8) (t : Token) (ts us : List Token) :
    base buf (t :: ts ++ us) = base buf (t :: ts) := rfl

/-- An element of words that is not whole. -/
theorem endsWith_words {x : Elt} {t : EltType} (hx : x.HasType t) (ht : t ≠ .string)
    {buf : List UInt8} (us : List Token)
    (h : ¬ Whole (headerSize + (base buf x.tokens).length) x.tokens) :
    ∃ p, CutOff t p ∧ EndsWith buf (x.tokens ++ us) p := by
  have hu := Elt.words_tokens hx ht
  cases hxt : x.tokens with
  | nil =>
      rw [hxt] at h
      exact absurd trivial h
  | cons t₀ ts =>
      rw [hxt] at h hu
      obtain ⟨k, n, rfl, -, hk⟩ := hu t₀ List.mem_cons_self
      have hnil := @not_breaks_nil k n hk
      have hnb := @not_breaks_base buf _ ts hnil
      obtain ⟨p, cs, hc, hp, hpos⟩ := chunks_cut hu us h
      refine ⟨p, ?_, ?_⟩
      · have hpos := hpos fun t ht => by
          cases ht
          exact hnb
        rw [← hxt] at hp
        by_cases hs : t.slow = true
        · -- a bool is one word
          obtain ⟨-, v, rfl⟩ := (Elt.slow_cases hx hs).resolve_right fun h => ht h.1
          cases hxt
          exact absurd ⟨hnb, trivial, trivial⟩ h
        · rw [Elt.length_copied hx (Bool.not_eq_true _ ▸ hs)] at hp
          rw [CutOff, if_neg hs]
          exact ⟨hpos, hp⟩
      · rw [List.cons_append, ← base_append buf _ ts us] at *
        exact endsWith_base hnil hc

/-- A string that is not whole: its length is in a chunk, and its characters do not fit. -/
theorem endsWith_string {s : ZString} {buf : List UInt8}
    (h : ¬ Whole (headerSize + (base buf (Elt.string s).tokens).length) (Elt.string s).tokens) :
    CutOff .string (leBytes 8 s.chars.length) ∧
      EndsWith buf [.word 8 s.chars.length] (leBytes 8 s.chars.length) ∧
      ¬ (Token.chars s.chars).Fits
        (headerSize + (base buf [.word 8 s.chars.length]).length + 8) := by
  have hnil := @not_breaks_nil 8 s.chars.length (Nat.le_refl 8)
  have hnb := @not_breaks_base buf _ [] hnil
  have hfit : ¬ (Token.chars s.chars).Fits
      (headerSize + (base buf [.word 8 s.chars.length]).length + 8) := by
    intro hf
    exact h ⟨hnb, trivial, id, (by rw [Token.image, length_leBytes]; exact hf), trivial⟩
  refine ⟨?_, @endsWith_base _ _ _ _ [] hnil ?_, hfit⟩
  · rw [CutOff, if_pos (show EltType.string.slow = true from rfl)]
    refine ⟨rfl, s.chars.length, Nat.pos_of_ne_zero fun h0 => ?_, ZString.chars_lt s, rfl⟩
    exact hfit (.inl (List.length_eq_zero_iff.mp h0))
  · rw [chunks, if_neg hnb]
    rfl

/-! ## The array is read -/

namespace VArray.Valid

variable {a : VArray} {front : List UInt8} {ts : List Token} {more : List (List UInt8)}

/-- The elements of an array are all there at once or begin behind the list. -/
theorem rcv_elts (h : a.Valid) (hm : EachWhole (headerSize + front.length) a.headItems)
    (hw : EachWhole (headerSize + (fill front a.headItems).length) a.eltItems) :
    Rcv Receives front (a.headItems.flatten ++ eltTokens a.elts) [] [] 0 := by
  obtain ⟨b, -, -, hr⟩ := @rcv_array a front (value a.type.valType [.word 8 a.size]) [] [] []
    Receives _ h rfl (eachWhole_append.mpr ⟨hm, hw⟩)
  rw [List.append_nil, ← VArray.headItems, List.flatten_append, VArray.eltItems_eq,
    ← List.flatMap_def] at hr
  refine hr.mpr ?_
  rw [Rcv, chunks, List.append_nil, receives_stop]
  · trivial
  · rintro (hlt | ⟨h0, -⟩)
    · exact Nat.lt_irrefl _ hlt
    · exact Nat.lt_irrefl _ h0

/-- A part of an element keeps the reader from its end. -/
theorem not_rcv_elts (h : a.Valid) (hm : EachWhole (headerSize + front.length) a.headItems)
    {ys zs : List Elt} {x : Elt} (hxs : a.elts = ys ++ x :: zs)
    (hys : EachWhole (headerSize + (fill front a.headItems).length) (ys.map Elt.tokens))
    {p : List UInt8} (hp : CutOff a.type p)
    (hts : EndsWith (fill (fill front a.headItems) (ys.map Elt.tokens)) ts p) :
    ¬ Rcv Receives front (a.headItems.flatten ++ (eltTokens ys ++ ts)) more [] 0 := by
  obtain ⟨b, hs, -, hr⟩ := @rcv_head a front (value a.type.valType [.word 8 a.size])
    (eltTokens ys ++ ts) more [] Receives _ h rfl hm
  have hlen := h.length_elts
  have htypes := h.hasType
  rw [hxs] at hlen htypes
  rw [List.length_append, List.length_cons] at hlen
  have h0 : a.size ≠ 0 := by
    rw [h.size_eq]
    omega
  refine fun hrcv => absurd (hr.mp hrcv) ?_
  rw [if_neg h0]
  obtain ⟨cs, hts⟩ := hts
  refine atElt_cutOff (List.forall_mem_append.mp htypes).1 hs h.size_eq ?_ ?_ hys hp hts
  · rintro hn
    rw [hn, Nat.mul_zero] at hlen
    omega
  · rw [h.size_eq]
    omega

end VArray.Valid

/-- Whole items fill chunks, and what follows goes on in the last one. -/
theorem chunks_items {buf : List UInt8} {us : List (List Token)}
    (h : EachWhole (headerSize + buf.length) us) :
    ∃ cs, ∀ ts, chunks buf (us.flatten ++ ts) = cs ++ chunks (fill buf us) ts := by
  induction us generalizing buf with
  | nil => exact ⟨[], fun ts => rfl⟩
  | cons u us ih =>
      obtain ⟨hu, hus⟩ := eachWhole_cons.mp h
      obtain ⟨cs, hcs⟩ := ih hus
      rcases chunks_item hu with hb | ⟨-, hb, hc⟩
      · refine ⟨cs, fun ts => ?_⟩
        rw [hb] at hu
        rw [List.flatten_cons, List.append_assoc, chunks_whole _ hu, fill, ← hcs, hb]
      · refine ⟨buf :: cs, fun ts => ?_⟩
        rw [hb] at hu
        rw [List.flatten_cons, List.append_assoc, hc, chunks_whole _ hu, fill, List.cons_append,
          ← hcs, hb]

/-- Where the encoder is behind whole items and a word. -/
theorem offset_word {front : List UInt8} {us : List (List Token)} {k n : Nat} {ec : Encode}
    (h : EachWhole (headerSize + front.length) us)
    (hc : ec.sent ++ [ec.buf] = chunks front (us.flatten ++ [.word k n])) :
    ec.offset = headerSize + (base (fill front us) [.word k n]).length + k := by
  obtain ⟨cs, hcs⟩ := chunks_items h
  have hlast : ∃ ds, chunks (fill front us) [.word k n] =
      ds ++ [base (fill front us) [.word k n] ++ leBytes k n] := by
    rw [chunks, base]
    split
    · exact ⟨[fill front us], rfl⟩
    · exact ⟨[], rfl⟩
  obtain ⟨ds, hds⟩ := hlast
  rw [hcs, hds, ← List.append_assoc] at hc
  have hbuf := (List.append_inj' hc rfl).2
  rw [Encode.offset, List.head_eq_of_cons_eq hbuf, List.length_append, length_leBytes,
    Nat.add_assoc]

theorem flatten_elts (us : List (List Token)) (ys : List Elt) (ts : List Token) :
    (us ++ ys.map Elt.tokens).flatten ++ ts = us.flatten ++ (eltTokens ys ++ ts) := by
  rw [List.flatten_append, ← List.flatMap_def, List.append_assoc]
  rfl

/-- An array with an element of words that is not whole. -/
theorem not_readTerminates_words {front : List UInt8} {a : VArray} (h : a.Valid)
    (hm : EachWhole (headerSize + front.length) a.headItems) (ht : a.type ≠ .string)
    {ys zs : List Elt} {x : Elt} (hxs : a.elts = ys ++ x :: zs)
    (hys : EachWhole (headerSize + (fill front a.headItems).length) (ys.map Elt.tokens))
    (hx : ¬ Whole (headerSize + (base (fill (fill front a.headItems) (ys.map Elt.tokens))
      x.tokens).length) x.tokens) :
    ¬ ReadTerminates front a := by
  rintro ⟨ec, hec, hr⟩
  have htypes := h.hasType
  rw [hxs] at htypes
  obtain ⟨-, hxz⟩ := List.forall_mem_append.mp htypes
  obtain ⟨hxt, hz⟩ := List.forall_mem_cons.mp hxz
  have hwords : Words (x.tokens ++ eltTokens zs) := by
    intro t htm
    rcases List.mem_append.mp htm with htm | htm
    · exact Elt.words_tokens hxt ht t htm
    · obtain ⟨z, hz', htm⟩ := List.mem_flatMap.mp htm
      exact Elt.words_tokens (hz z hz') ht t htm
  have hall := allFit_items (eachWhole_append.mpr ⟨hm, hys⟩) (hwords.allFit _)
  have htokens : a.tokens = (a.headItems ++ ys.map Elt.tokens).flatten ++
      (x.tokens ++ eltTokens zs) := by
    rw [VArray.tokens_eq, hxs, eltTokens_append, eltTokens_cons, flatten_elts]
  obtain ⟨ec', hec', hc⟩ := @writeTokens_chunks _ [] front hall
  rw [← htokens, hec, Option.some.injEq] at hec'
  subst hec'
  obtain ⟨p, hp, hend⟩ := endsWith_words hxt ht (eltTokens zs) hx
  refine @VArray.Valid.not_rcv_elts a front _ [] h hm ys zs x hxs hys p hp hend ?_
  rw [hc, List.nil_append, flatten_elts] at hr
  rwa [Rcv, List.append_nil]

/-- An array with a string that is not whole. -/
theorem not_readTerminates_string {front : List UInt8} {a : VArray} (h : a.Valid)
    (hm : EachWhole (headerSize + front.length) a.headItems) (ht : a.type = .string)
    {ys zs : List Elt} {s : ZString} (hxs : a.elts = ys ++ .string s :: zs)
    (hys : EachWhole (headerSize + (fill front a.headItems).length) (ys.map Elt.tokens))
    (hx : ¬ Whole (headerSize + (base (fill (fill front a.headItems) (ys.map Elt.tokens))
      (Elt.string s).tokens).length) (Elt.string s).tokens) :
    ¬ ReadTerminates front a := by
  rintro ⟨ec, hec, hr⟩
  have hwhole := eachWhole_append.mpr ⟨hm, hys⟩
  obtain ⟨hp, hend, hfit⟩ := endsWith_string hx
  have hall := @allFit_items _ _ [.word 8 s.chars.length] hwhole ⟨trivial, trivial⟩
  have htokens : a.tokens =
      ((a.headItems ++ ys.map Elt.tokens).flatten ++ [.word 8 s.chars.length]) ++
        .chars s.chars :: eltTokens zs := by
    rw [VArray.tokens_eq, hxs, eltTokens_append, eltTokens_cons, flatten_elts, List.append_assoc,
      List.append_assoc]
    rfl
  rw [htokens] at hec
  obtain ⟨more, hc⟩ := writeTokens_unfit hall (fun ec' hec' => by
    obtain ⟨ec₁, h₁, hc₁⟩ := @writeTokens_chunks _ [] front hall
    rw [hec', Option.some.injEq] at h₁
    subst h₁
    rw [List.nil_append] at hc₁
    rw [offset_word hwhole hc₁, fill_append]
    exact hfit) hec
  refine @VArray.Valid.not_rcv_elts a front _ more h hm ys zs _ hxs hys _ (ht ▸ hp) hend ?_
  rw [hc, flatten_elts] at hr
  exact hr

/-- The chunks of an array are all read to an end exactly when each of the elements is
whole. -/
theorem readTerminates_iff {front : List UInt8} {a : VArray} (h : a.Valid)
    (hm : EachWhole (headerSize + front.length) a.headItems) :
    ReadTerminates front a ↔ EachWhole (endOf (headerSize + front.length) a.headItems) a.eltItems := by
  rw [← length_fill]
  constructor
  · rintro ⟨ec, hec, hr⟩
    by_contra hnot
    rw [VArray.eltItems_eq] at hnot
    obtain ⟨ys, x, zs, hxs, hys, hx⟩ := exists_not_whole hnot
    by_cases ht : a.type = .string
    · have hxt : x.HasType a.type := h.hasType x (by rw [hxs]; simp)
      cases x with
      | string s => exact not_readTerminates_string h hm ht hxs hys hx ⟨ec, hec, hr⟩
      | _ =>
          rw [ht] at hxt
          simp [Elt.HasType] at hxt
    · exact not_readTerminates_words h hm ht hxs hys hx ⟨ec, hec, hr⟩
  · intro hw
    have hall := @allFit_items _ _ [] (eachWhole_append.mpr ⟨hm, hw⟩) trivial
    rw [List.append_nil] at hall
    obtain ⟨ec, hec, hc⟩ := @writeTokens_chunks _ [] front hall
    refine ⟨ec, hec, ?_⟩
    rw [hc, List.nil_append]
    have hr := h.rcv_elts hm hw
    rwa [Rcv, ← VArray.tokens_eq, List.append_nil] at hr

/-- A vector of equal intervals. -/
def intervals (n : Nat) : VArray where
  type := .interval
  dim := [UInt64.ofNat n]
  names := [[]]
  v := [⟨true, List.replicate n (.interval 0 1 0 0)⟩]

theorem intervals_nrows {n : Nat} (h : n < 2 ^ 64) : (intervals n).nrows = n := by
  show (UInt64.ofNat n).toNat = n
  rw [UInt64.toNat_ofNat']
  exact Nat.mod_eq_of_lt h

theorem intervals_valid {n : Nat} (h : n < 2 ^ 64) : (intervals n).Valid where
  ncols := rfl
  nrows c hc := by
    cases List.mem_singleton.mp hc
    rw [intervals_nrows h]
    exact List.length_replicate
  types c hc x hx := by
    cases List.mem_singleton.mp hc
    cases List.eq_of_mem_replicate hx
    rfl
  names := rfl
  named j hj d hd := by
    cases j with
    | zero => exact .inl rfl
    | succ j => exact absurd hj (Nat.not_lt.mpr (Nat.le_add_left 1 j))
  memory := by
    rw [intervals_nrows h]
    show 1 * n < 2 ^ 64
    omega
  columns := by
    show 1 < 2 ^ 64
    norm_num
  dims := by
    show 1 < 2 ^ 64
    norm_num

theorem readTerminates_iff_one : ReadTerminates [] (intervals 1) :=
  (readTerminates_iff (intervals_valid (by norm_num)) (by decide +kernel)).mpr (by decide +kernel)

/-- Intervals that go into the chunk. -/
theorem eachWhole_intervals {off n : Nat} (h : off + 24 * n ≤ CHUNKSZ) :
    EachWhole off ((List.replicate n (.interval 0 1 0 0)).map Elt.tokens) ∧
      endOf off ((List.replicate n (.interval 0 1 0 0)).map Elt.tokens) = off + 24 * n := by
  induction n generalizing off with
  | zero => exact ⟨trivial, rfl⟩
  | succ n ih =>
      have hbegin : beginOf off (Elt.interval 0 1 0 0).tokens = off := if_neg (by
        show ¬ CHUNKSZ < off + 8
        omega)
      have hwhole : Whole off (Elt.interval 0 1 0 0).tokens := by
        refine ⟨?_, trivial, ?_, trivial, ?_, trivial, ?_, trivial, trivial⟩
        · show ¬ CHUNKSZ < off + 8
          omega
        · show ¬ CHUNKSZ < off + 8 + 8
          omega
        · show ¬ CHUNKSZ < off + 8 + 8 + 4
          omega
        · show ¬ CHUNKSZ < off + 8 + 8 + 4 + 4
          omega
      obtain ⟨hw, he⟩ := @ih (off + 24) (by omega)
      have hoff : off + 24 + 24 * n = off + 24 * (n + 1) := by omega
      rw [List.replicate_succ, List.map_cons, EachWhole, endOf, hbegin]
      exact ⟨⟨hwhole, hw⟩, he.trans hoff⟩

/-- The first chunk of 5450 intervals ends inside the last of them. -/
theorem not_readTerminates_intervals :
    (intervals 5450).Valid ∧ ¬ ReadTerminates [] (intervals 5450) := by
  have hvalid := @intervals_valid 5450 (by norm_num)
  have hm : EachWhole (headerSize + ([] : List UInt8).length) (intervals 5450).headItems := by
    decide +kernel
  have hbegin : headerSize + (fill [] (intervals 5450).headItems).length = 280 := by
    rw [length_fill]
    decide +kernel
  obtain ⟨hw, he⟩ := @eachWhole_intervals 280 5449 (by decide)
  refine ⟨hvalid, @not_readTerminates_words [] (intervals 5450) hvalid hm nofun
    (List.replicate 5449 (.interval 0 1 0 0)) [] (.interval 0 1 0 0) ?_ ?_ ?_⟩
  · show List.replicate (5449 + 1) _ ++ [] = _
    rw [List.append_nil, List.replicate_succ']
  · rwa [hbegin]
  · rw [length_base, length_fill, hbegin, he]
    decide +kernel

end Ztsdb.Net
