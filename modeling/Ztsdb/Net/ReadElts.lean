import Mathlib
import Ztsdb.Arr.NameMap
import Ztsdb.Net.ReadItems

/-!
# The elements of an array

When the list of an array is there, the elements follow, chunk by chunk. A chunk that ends
between two of them is left at its end, and the next one goes on. In a chunk that ends
inside an element, the reader stays: the copying loop has nothing whole to copy, and a
string would be read from behind the chunk. So the chunks of an array are read to their ends
exactly when each element is whole.
-/

namespace Ztsdb.Net

open Ztsdb.Lib Ztsdb.Arr
open AppendMessage (getAlignedLength getAlignedLength_of_le le_aligned)

/-! ## The array that is filled -/

/-- An array with the type and the extents of another one. -/
structure SameShape (b a : VArray) : Prop where
  type : b.type = a.type
  dim : b.dim = a.dim
  ncols : b.v.length = a.v.length
  nrows : ∀ c ∈ b.v, c.v.length = a.nrows

namespace SameShape

variable {a b : VArray}

theorem nrows_eq (h : SameShape b a) : b.nrows = a.nrows := by
  rw [VArray.nrows, VArray.nrows, h.dim]

/-- A column is replaced by one as long. -/
theorem set (h : SameShape b a) (col : Nat) {column : Column} (hc : column.v.length = a.nrows) :
    SameShape { b with type := a.type, v := b.v.set col column } a where
  type := rfl
  dim := h.dim
  ncols := (List.length_set ..).trans h.ncols
  nrows c hcm := by
    rcases List.mem_or_eq_of_mem_set hcm with hm | rfl
    · exact h.nrows c hm
    · exact hc

end SameShape

/-! ## The list becomes an array -/

/-- A conversion that succeeds for each element. -/
theorem mapM_map_some {α β γ : Type} {f : α → Option β} {g : γ → α} {h : γ → β}
    (hf : ∀ x, f (g x) = some (h x)) (l : List γ) : (l.map g).mapM f = some (l.map h) := by
  induction l with
  | nil => rfl
  | cons x l ih =>
      rw [List.map_cons, List.mapM_cons, hf, ih]
      rfl

/-- What the list of an array says. -/
theorem convertFromList_meta (a : VArray) :
    convertFromList a.metaVal = some (a.dim,
      a.names.map fun nm => nm.map fun s => ZString.ofString s.chars,
      a.v.map fun c => if c.ordered then 1 else 0) := by
  have hstrings (nm : List ZString) :
      (nm.map fun s => Val.std_string s.chars).mapM (fun s => ZString.ofString <$> s.toChars) =
        some (nm.map fun s => ZString.ofString s.chars) :=
    mapM_map_some (f := fun s : Val => ZString.ofString <$> s.toChars) (fun _ => rfl) nm
  have hnames := mapM_map_some
    (f := fun subl : Val => do (← subl.toList).mapM fun s => ZString.ofString <$> s.toChars)
    (g := fun nm : List ZString => .list (nm.map fun s => ([], .std_string s.chars)))
    (h := fun nm => nm.map fun s => ZString.ofString s.chars)
    (fun nm => by
      show (Val.toList _).bind _ = _
      rw [Val.toList, List.map_map]
      exact hstrings nm) a.names
  rw [convertFromList, VArray.metaVal]
  simp only [Val.toList, Val.toInts, List.map_cons, List.map_nil, Option.bind_eq_bind,
    Option.bind_some, List.getElem?_cons_zero, List.getElem?_cons_succ]
  rw [List.map_map]
  exact congrArg (fun names => Option.bind names fun names => some (a.dim, names, _)) hnames

theorem misnamed_none {a : VArray} (h : a.Valid) :
    misnamed a.dim (a.names.map fun nm => nm.map fun s => ZString.ofString s.chars) = none := by
  rw [misnamed, List.find?_eq_none]
  intro j hj
  have hj := List.mem_range.mp hj
  have hjn : j < a.names.length := h.names ▸ hj
  rcases h.named j hjn a.dim[j] (List.getElem?_eq_getElem hj) with h0 | hlen
  · simp [hjn, h0]
  · simp [hjn, hj, hlen]

/-- The array that is made of it is as large. -/
theorem VArray.Valid.made {a : VArray} (h : a.Valid) :
    ∃ b, ((VArray.noinit a.type a.dim
        (a.names.map fun nm => nm.map fun s => ZString.ofString s.chars)).bind
      (VArray.setOrdered (a.v.map fun c => if c.ordered then 1 else 0))) = .ok b ∧
      SameShape b a := by
  have hmis := misnamed_none h
  have hv := h.ncols
  have hn := h.names
  cases hd : a.dim with
  | nil =>
      rw [hd] at hv
      have hv : a.v = [] := List.length_eq_zero_iff.mp hv
      refine ⟨{ type := a.type, dim := [], names := [], v := [] }, ?_, ⟨rfl, hd.symm, ?_, ?_⟩⟩
      · rw [hv, VArray.noinit]
        rfl
      · rw [hv]
      · intro c hc
        exact absurd hc (List.not_mem_nil)
  | cons d ds =>
      rw [hd] at hmis hn
      rw [VArray.noinit, List.length_map, if_neg (fun hne => hne.2 hn), hmis]
      simp only [Except.bind, VArray.setOrdered, List.length_map, List.length_replicate]
      rw [← hd, ← hv, if_neg (Nat.lt_irrefl _)]
      refine ⟨_, rfl, ⟨rfl, rfl, ?_, ?_⟩⟩
      · simp
      · intro c hc
        have hnr : a.nrows = d.toNat := by rw [VArray.nrows, hd]; rfl
        obtain ⟨j, hj, rfl⟩ := List.getElem_of_mem hc
        simp only [List.getElem_mapIdx, List.getElem_replicate]
        split
        · rw [List.length_replicate, hnr]
        · rw [List.length_replicate, hnr]

/-! ## Elements as they are written -/

/-- The tokens of elements. -/
def eltTokens (xs : List Elt) : List Token := xs.flatMap Elt.tokens

@[simp] theorem eltTokens_nil : eltTokens [] = [] := rfl

@[simp] theorem eltTokens_cons (x : Elt) (xs : List Elt) :
    eltTokens (x :: xs) = x.tokens ++ eltTokens xs := rfl

theorem eltTokens_append (xs ys : List Elt) :
    eltTokens (xs ++ ys) = eltTokens xs ++ eltTokens ys := List.flatMap_append

/-- The elements that are read one at a time. -/
theorem Elt.slow_cases {x : Elt} {t : EltType} (h : x.HasType t) (ht : t.slow = true) :
    (t = .bool ∧ ∃ v, x = .bool v) ∨ t = .string ∧ ∃ s, x = .string s := by
  cases x with
  | word n =>
      rcases h with rfl | rfl | rfl
      · cases ht
      · cases ht
      · cases ht
  | bool v => exact .inl ⟨h, v, rfl⟩
  | interval s e sopen eopen =>
      cases (show t = .interval from h)
      cases ht
  | period months days dur =>
      cases (show t = .period from h)
      cases ht
  | string s => exact .inr ⟨h, s, rfl⟩

theorem Elt.length_copied {x : Elt} {t : EltType} (h : x.HasType t) (ht : t.slow = false) :
    (tokenImage x.tokens).length = t.sizeof := by
  cases x with
  | word n =>
      rcases h with rfl | rfl | rfl
      · rfl
      · rfl
      · rfl
  | bool b =>
      cases (show t = .bool from h)
      cases ht
  | interval s e sopen eopen =>
      cases (show t = .interval from h)
      rfl
  | period months days dur =>
      cases (show t = .period from h)
      rfl
  | string s =>
      cases (show t = .string from h)
      cases ht

theorem length_eltTokens {xs : List Elt} {t : EltType} (h : ∀ x ∈ xs, x.HasType t)
    (ht : t.slow = false) : (tokenImage (eltTokens xs)).length = t.sizeof * xs.length := by
  induction xs with
  | nil => rfl
  | cons x xs ih =>
      obtain ⟨hx, hxs⟩ := List.forall_mem_cons.mp h
      rw [eltTokens_cons, tokenImage_append, List.length_append, ih hxs, Elt.length_copied hx ht,
        List.length_cons, Nat.mul_succ, Nat.add_comm]

theorem EltType.sizeof_pos (t : EltType) : 0 < t.sizeof := by
  cases t <;> decide

/-! ## The loop that copies -/

theorem SameShape.column {a b : VArray} (hs : SameShape b a) {col : Nat} (h : col < a.v.length) :
    ∃ column, b.v[col]? = some column ∧ column.v.length = a.nrows := by
  have hlt : col < b.v.length := hs.ncols.symm ▸ h
  exact ⟨b.v[col], List.getElem?_eq_getElem hlt, hs.nrows _ (List.getElem_mem hlt)⟩

variable {a b : VArray} {c : List UInt8} {exp col coloff off n : Nat}

/-- With no whole element left the loop is over or stays. -/
theorem copyElts_none {r : Nat} (hs : SameShape b a) (hc : c.length = off + r)
    (hcol : n < exp → col < a.v.length) (hr : n = exp ∨ n < exp ∧ r < a.type.sizeof) :
    copyElts c exp col coloff off n b = if n = exp ∨ r = 0 then .done off n b else .spins := by
  rw [copyElts]
  by_cases hend : n = exp ∨ r = 0
  · rw [if_pos hend, if_neg]
    omega
  · obtain ⟨hn, hr⟩ := hr.resolve_left fun h => hend (.inl h)
    obtain ⟨column, hget, -⟩ := hs.column (hcol hn)
    have hq : (c.length - off) / b.type.sizeof = 0 := by
      rw [hs.type, Nat.div_eq_of_lt]
      omega
    rw [if_neg hend, if_pos (by omega)]
    simp only [hq, Nat.min_zero, Nat.zero_min, hget, if_true]

/-- A round of the loop. -/
theorem copyElts_round {m : Nat} (hs : SameShape b a) (hcol : col < a.v.length) (hn : n < exp)
    (ho : off < c.length) (hm : min (exp - n) ((c.length - off) / a.type.sizeof) = m)
    (h0 : min m (a.nrows - coloff) ≠ 0) :
    ∃ b', SameShape b' a ∧ copyElts c exp col coloff off n b =
      let k := min m (a.nrows - coloff)
      if coloff + k = a.nrows then copyElts c exp (col + 1) 0 (off + a.type.sizeof * k) (n + k) b'
      else copyElts c exp col coloff (off + a.type.sizeof * k) (n + k) b' := by
  obtain ⟨column, hget, hlen⟩ := hs.column hcol
  rw [copyElts, if_pos ⟨hn, ho⟩]
  simp only [hget, hs.type, hs.nrows_eq, hm, if_neg h0]
  refine ⟨_, hs.set col ?_, rfl⟩
  simp only [Column.copyTo, List.length_append, List.length_take, List.length_map,
    List.length_range, List.length_drop, hlen]
  omega

/-- The loop copies the whole elements that are there. -/
theorem copyElts_spec {k r : Nat} (hs : SameShape b a)
    (hc : c.length = off + a.type.sizeof * k + r)
    (hexp : exp = a.v.length * a.nrows) (hn : col * a.nrows + coloff = n) (hlt : coloff < a.nrows)
    (hr : n + k = exp ∨ n + k < exp ∧ r < a.type.sizeof) :
    if n + k = exp ∨ r = 0 then
      ∃ b', copyElts c exp col coloff off n b = .done (off + a.type.sizeof * k) (n + k) b' ∧
        SameShape b' a
    else copyElts c exp col coloff off n b = .spins := by
  -- the case without an element also ends a column that is not full
  have hzero {b : VArray} {col coloff off n : Nat} (hs : SameShape b a)
      (hcol : n < exp → col < a.v.length) (hc : c.length = off + r)
      (hr : n = exp ∨ n < exp ∧ r < a.type.sizeof) :
      if n = exp ∨ r = 0 then
        ∃ b', copyElts c exp col coloff off n b = .done off n b' ∧ SameShape b' a
      else copyElts c exp col coloff off n b = .spins := by
    have h := @copyElts_none a b c exp col coloff off n r hs hc hcol hr
    by_cases hend : n = exp ∨ r = 0
    · rw [if_pos hend] at h ⊢
      exact ⟨b, h, hs⟩
    · rw [if_neg hend] at h ⊢
      exact h
  induction k using Nat.strong_induction_on generalizing col coloff off n b with
  | _ k ih =>
      have hcol : n < exp → col < a.v.length := by
        intro hlt'
        rw [hexp, ← hn] at hlt'
        exact Nat.lt_of_mul_lt_mul_right (Nat.lt_of_le_of_lt (Nat.le_add_right _ _) hlt')
      by_cases hk : k = 0
      · subst hk
        exact hzero hs hcol (by simpa using hc) hr
      · have hpos := a.type.sizeof_pos
        have hle : a.type.sizeof ≤ a.type.sizeof * k :=
          Nat.le_mul_of_pos_right _ (Nat.pos_of_ne_zero hk)
        have hn' : n < exp := by omega
        have hq : min (exp - n) ((c.length - off) / a.type.sizeof) = k := by
          have hsub : c.length - off = r + a.type.sizeof * k := by omega
          rw [hsub, Nat.add_mul_div_left _ _ hpos]
          rcases hr with hr | ⟨hr, hrw⟩
          · generalize r / a.type.sizeof = q
            omega
          · rw [Nat.div_eq_of_lt hrw]
            omega
        obtain ⟨b', hs', hround⟩ := @copyElts_round a b c exp col coloff off n k hs (hcol hn') hn'
          (by omega) hq (by omega)
        rw [hround]
        by_cases hfull : k < a.nrows - coloff
        · have hmin : min k (a.nrows - coloff) = k := by omega
          simp only [hmin, if_neg (show coloff + k ≠ a.nrows by omega)]
          exact hzero hs' (fun _ => hcol hn') hc hr
        · have hmin : min k (a.nrows - coloff) = a.nrows - coloff := by omega
          simp only [hmin, if_pos (show coloff + (a.nrows - coloff) = a.nrows by omega)]
          obtain ⟨k', rfl⟩ : ∃ k', k = a.nrows - coloff + k' := ⟨k - (a.nrows - coloff), by omega⟩
          have h := @ih k' (by omega) b' (col + 1) 0 (off + a.type.sizeof * (a.nrows - coloff))
            (n + (a.nrows - coloff)) hs' (by rw [hc, Nat.mul_add]; omega)
            (by rw [Nat.succ_mul]; omega) (by omega) (by omega)
          rw [Nat.add_assoc n, Nat.add_assoc off, ← Nat.mul_add] at h
          exact h

/-! ## The loop that reads one element at a time -/

theorem ZString.chars_lt (s : ZString) : s.chars.length < 256 ^ 8 := by
  have := s.short
  simp only [Arr.STRING_SIZE] at this
  norm_num
  omega

theorem tokenImage_string (s : ZString) :
    tokenImage (Elt.string s).tokens = leBytes 8 s.chars.length ++ (s.chars ++
      List.replicate (getAlignedLength s.chars.length - s.chars.length) 0) := by
  simp [Elt.tokens, stringTokens, Token.image]

/-- An element that is there is read; a string that fills its buffer loses a character. -/
theorem getEltFromBuffer_at {x : Elt} {t : EltType} (h : x.HasType t) (ht : t.slow = true)
    (hat : At c off (tokenImage x.tokens)) :
    ∃ y, getEltFromBuffer t c off = some (y, off + (tokenImage x.tokens).length) ∧
      ((∀ s, x = .string s → s.chars.length < Arr.STRING_SIZE) → y = x) := by
  obtain ⟨rfl, v, rfl⟩ | ⟨rfl, s, rfl⟩ := Elt.slow_cases h ht
  · have hw := readWord_at hat.left (show v.toNat < 256 ^ 8 by cases v <;> norm_num)
    refine ⟨.bool (decide (v.toNat ≠ 0)), by rw [getEltFromBuffer, hw]; rfl, fun _ => ?_⟩
    cases v <;> rfl
  · rw [tokenImage_string] at hat ⊢
    have hw := readWord_at hat.left (ZString.chars_lt s)
    have hle := hat.right.length_le
    have hsl := hat.right.left.slice
    have hal : s.chars.length ≤ getAlignedLength s.chars.length := by
      rw [getAlignedLength_of_le (by have := s.short; simp only [Arr.STRING_SIZE] at this; omega)]
      exact le_aligned _
    simp only [length_leBytes, List.length_append, List.length_replicate] at hle hsl ⊢
    have hend : off + 8 + getAlignedLength s.chars.length = off + (8 + (s.chars.length +
        (getAlignedLength s.chars.length - s.chars.length))) := by omega
    rw [getEltFromBuffer, hw]
    simp only
    rw [if_pos (by omega), hend, hsl]
    exact ⟨_, rfl, fun hs => by rw [ZString.ofString_chars (hs s rfl)]⟩

theorem Column.length_setv_checkbefore {i : Nat} {x : Elt} {column : Column}
    (h : i < column.v.length) :
    ∃ column', column.setv_checkbefore i x = some column' ∧
      column'.v.length = column.v.length := by
  refine ⟨_, if_neg (Nat.not_le.mpr h), ?_⟩
  rw [List.length_set]

/-- A round of the loop. -/
theorem readSlow_round {x : Elt} (hx : x.HasType a.type) (ht : a.type.slow = true)
    (hs : SameShape b a) (hcol : col < a.v.length) (hlt : coloff < a.nrows) (hn : n < exp)
    (hat : At c off (tokenImage x.tokens)) (hpos : 0 < (tokenImage x.tokens).length) :
    ∃ b', SameShape b' a ∧ readSlow c exp col coloff off n b =
      let off' := off + (tokenImage x.tokens).length
      if coloff + 1 = a.nrows then readSlow c exp (col + 1) 0 off' (n + 1) b'
      else readSlow c exp col (coloff + 1) off' (n + 1) b' := by
  obtain ⟨column, hget, hlen⟩ := hs.column hcol
  obtain ⟨y, hy, -⟩ := getEltFromBuffer_at hx ht hat
  obtain ⟨column', hset, hlen'⟩ := @Column.length_setv_checkbefore coloff y column (hlen ▸ hlt)
  have hle := hat.length_le
  rw [readSlow, if_pos ⟨hn, by omega⟩]
  simp only [hs.type, hy, hget, hset, hs.nrows_eq]
  exact ⟨_, hs.set col (hlen'.trans hlen), rfl⟩

theorem Elt.length_pos (x : Elt) : 0 < (tokenImage x.tokens).length := by
  cases x with
  | string s =>
      show 0 < (tokenImage (stringTokens s.chars)).length
      rw [stringTokens, tokenImage_cons, List.length_append, Token.image, length_leBytes]
      omega
  | _ => exact Nat.succ_pos _

/-- The loop reads the elements that are there. -/
theorem readSlow_at {xs : List Elt} (hxs : ∀ x ∈ xs, x.HasType a.type)
    (ht : a.type.slow = true) (hs : SameShape b a) (hexp : exp = a.v.length * a.nrows)
    (hn : col * a.nrows + coloff = n) (hlt : coloff < a.nrows) (hle : n + xs.length ≤ exp)
    (hat : At c off (tokenImage (eltTokens xs))) :
    ∃ b' col' coloff', SameShape b' a ∧ readSlow c exp col coloff off n b =
      readSlow c exp col' coloff' (off + (tokenImage (eltTokens xs)).length) (n + xs.length) b' := by
  induction xs generalizing col coloff off n b with
  | nil => exact ⟨b, col, coloff, hs, rfl⟩
  | cons x xs ih =>
      obtain ⟨hx, hxs⟩ := List.forall_mem_cons.mp hxs
      rw [eltTokens_cons, tokenImage_append] at hat
      rw [List.length_cons] at hle
      have hcol : col < a.v.length := by
        have hlt' : col * a.nrows + coloff < a.v.length * a.nrows := by omega
        exact Nat.lt_of_mul_lt_mul_right (Nat.lt_of_le_of_lt (Nat.le_add_right _ _) hlt')
      obtain ⟨b', hs', hround⟩ := @readSlow_round a b c exp col coloff off n x hx ht hs hcol hlt
        (by omega) hat.left x.length_pos
      rw [hround, eltTokens_cons, tokenImage_append, List.length_append, List.length_cons,
        ← Nat.add_assoc off, Nat.add_comm xs.length, ← Nat.add_assoc n]
      simp only
      split
      · next hfull =>
          exact ih hxs hs' (by rw [Nat.succ_mul]; omega) (by omega) (by omega) hat.right
      · exact ih hxs hs' (by omega) (by omega) (by omega) hat.right

/-! ## A chunk -/

/-- What a chunk can end with that is not an element: a part of one that would be copied, or
the length of a string without its characters. -/
def CutOff (t : EltType) (p : List UInt8) : Prop :=
  if t.slow then t = .string ∧ ∃ w, 0 < w ∧ w < 256 ^ 8 ∧ p = leBytes 8 w
  else 0 < p.length ∧ p.length < t.sizeof

theorem SameShape.dim_ne (hs : SameShape b a) (h : a.nrows ≠ 0) : b.dim ≠ [] := by
  rintro hd
  exact h (by rw [VArray.nrows, ← hs.dim, hd]; rfl)

theorem place_eq (n d : Nat) : n / d * d + n % d = n := by
  rw [Nat.mul_comm]
  exact Nat.div_add_mod n d

/-- Elements up to the last one, or up to the end of the chunk. -/
theorem readElts_done {xs : List Elt} (hxs : ∀ x ∈ xs, x.HasType a.type) (hs : SameShape b a)
    (hexp : exp = a.v.length * a.nrows) (hrows : a.nrows ≠ 0) (hle : n + xs.length ≤ exp)
    (hat : At c off (tokenImage (eltTokens xs)))
    (hend : n + xs.length = exp ∨ c.length = off + (tokenImage (eltTokens xs)).length) :
    ∃ b', SameShape b' a ∧ readEltsFromBuffer c exp off n b =
      .done (off + (tokenImage (eltTokens xs)).length) (n + xs.length) b' := by
  have hmod := Nat.mod_lt n (Nat.pos_of_ne_zero hrows)
  have hlen := hat.length_le
  rw [readEltsFromBuffer, if_neg (hs.dim_ne hrows), if_neg (by rwa [hs.nrows_eq])]
  simp only [hs.type, hs.nrows_eq]
  by_cases ht : a.type.slow = true
  · obtain ⟨b', col', coloff', hs', hr⟩ := readSlow_at hxs ht hs hexp (place_eq n a.nrows) hmod hle hat
    rw [if_pos ht, hr, readSlow, if_neg (by omega)]
    exact ⟨b', hs', rfl⟩
  · have hsz := length_eltTokens hxs (Bool.not_eq_true _ ▸ ht)
    have hspec := @copyElts_spec a b c exp (n / a.nrows) (n % a.nrows) off n xs.length
      (c.length - (off + (tokenImage (eltTokens xs)).length)) hs (by omega) hexp
      (place_eq n a.nrows) hmod (by have := a.type.sizeof_pos; omega)
    rw [if_pos (by omega)] at hspec
    obtain ⟨b', hr, hs'⟩ := hspec
    rw [if_neg ht, hsz]
    exact ⟨b', hs', hr⟩

/-- Elements, and then a part of one. -/
theorem readElts_cut {xs : List Elt} {p : List UInt8} (hxs : ∀ x ∈ xs, x.HasType a.type)
    (hs : SameShape b a) (hexp : exp = a.v.length * a.nrows) (hrows : a.nrows ≠ 0)
    (hlt : n + xs.length < exp) (hat : At c off (tokenImage (eltTokens xs) ++ p))
    (hlen : c.length = off + (tokenImage (eltTokens xs)).length + p.length)
    (hp : CutOff a.type p) :
    readEltsFromBuffer c exp off n b = .spins ∨ readEltsFromBuffer c exp off n b = .faults := by
  have hmod := Nat.mod_lt n (Nat.pos_of_ne_zero hrows)
  rw [readEltsFromBuffer, if_neg (hs.dim_ne hrows), if_neg (by rwa [hs.nrows_eq])]
  simp only [hs.type, hs.nrows_eq]
  by_cases ht : a.type.slow = true
  · rw [CutOff, if_pos ht] at hp
    obtain ⟨hstr, w, hw0, hw, rfl⟩ := hp
    obtain ⟨b', col', coloff', hs', hr⟩ :=
      readSlow_at hxs ht hs hexp (place_eq n a.nrows) hmod (by omega) hat.left
    have hword := readWord_at hat.right hw
    rw [length_leBytes] at hlen
    right
    rw [if_pos ht, hr, readSlow, if_pos (by omega), getEltFromBuffer, hword, hs'.type, hstr]
    simp only
    rw [if_neg (by omega)]
  · rw [CutOff, if_neg ht] at hp
    have hsz := length_eltTokens hxs (Bool.not_eq_true _ ▸ ht)
    have hspec := @copyElts_spec a b c exp (n / a.nrows) (n % a.nrows) off n xs.length p.length
      hs (by omega) hexp (place_eq n a.nrows) hmod (by omega)
    rw [if_neg (by omega)] at hspec
    left
    rw [if_neg ht, hspec]

/-! ## Turns over elements -/

variable {below : List ValState} {g : ValState} {buf : List UInt8} {more : List (List UInt8)}
  {R : Reader → List (List UInt8) → Prop} [Observes R]

/-- A reader between two elements. -/
def AtElt (R : Reader → List (List UInt8) → Prop) (buf : List UInt8) (ts : List Token)
    (more : List (List UInt8)) (below : List ValState) (g : ValState) (exp n : Nat) (b : VArray) :
    Prop :=
  Rcv R buf ts more (below ++ [⟨.array b, exp, n, 1⟩, g]) (below.length + 1)

theorem turn_elts (c : List UInt8) (off : Nat) (b : VArray) (exp n : Nat) :
    Reader.turn c ⟨off, below ++ [⟨.array b, exp, n, 1⟩, g], below.length + 1⟩ =
      match readEltsFromBuffer c exp off n b with
      | .throws e => .throws e
      | .faults => .faults
      | .spins => .spins
      | .done off n b =>
        if off = c.length ∧ n < exp then
          .leaves ⟨off, below ++ [⟨.array b, exp, n, 1⟩, g], below.length + 1⟩
        else if n = exp then .again ⟨off, below ++ [⟨.array b, exp, n, 1⟩], below.length⟩
        else .again ⟨off, below ++ [⟨.array b, exp, n, 1⟩, g], below.length + 1⟩ := by
  rw [turn_above, Reader.switch]
  simp only [Reader.readArray, one_ne_zero, if_false, if_true]
  cases readEltsFromBuffer c exp off n b with
  | throws e => rfl
  | faults => rfl
  | spins => rfl
  | done off n b =>
      simp only [Reader.endArray, put_above]
      split
      · rfl
      · split
        · rw [pop_above]
          rfl
        · rfl

theorem goes_above {c : List UInt8} {off : Nat} {f : ValState} :
    Reader.Goes c ⟨off, below ++ [f, g], below.length + 1⟩ := by
  right
  refine ⟨Nat.succ_pos _, ?_⟩
  show below.length + 1 < (below ++ [f, g]).length
  rw [List.length_append, List.length_cons, List.length_singleton]
  omega

/-- The elements go on in the next chunk. -/
theorem atElt_next {xs : List Elt} {ts : List Token} (hxs : ∀ x ∈ xs, x.HasType a.type)
    (hs : SameShape b a) (hexp : exp = a.v.length * a.nrows) (hrows : a.nrows ≠ 0)
    (hlt : n + xs.length < exp) (hw : Whole (headerSize + buf.length) (eltTokens xs))
    (hts : chunks (buf ++ tokenImage (eltTokens xs)) ts =
      (buf ++ tokenImage (eltTokens xs)) :: chunks [] ts) :
    ∃ b', SameShape b' a ∧
      readEltsFromBuffer (buf ++ tokenImage (eltTokens xs)) exp buf.length n b =
        .done (buf.length + (tokenImage (eltTokens xs)).length) (n + xs.length) b' ∧
      (AtElt R buf (eltTokens xs ++ ts) more below g exp n b ↔
        AtElt R [] ts more below g exp (n + xs.length) b') := by
  have hlen : (buf ++ tokenImage (eltTokens xs)).length =
      buf.length + (tokenImage (eltTokens xs)).length := List.length_append
  obtain ⟨b', hs', hr⟩ := @readElts_done a b (buf ++ tokenImage (eltTokens xs)) exp buf.length n xs
    hxs hs hexp hrows (by omega) ⟨buf, [], rfl, by rw [List.append_nil]⟩ (.inr hlen)
  have hturn := @turn_elts below g (buf ++ tokenImage (eltTokens xs)) buf.length b exp n
  rw [hr] at hturn
  simp only [if_pos (And.intro hlen.symm hlt)] at hturn
  refine ⟨b', hs', hr, ?_⟩
  rw [AtElt, Rcv, chunks_whole ts hw, hts, List.cons_append]
  exact Observes.leaves goes_above hturn _

/-- Elements, and then a part of one at the end of the chunk. -/
theorem atElt_cut {xs : List Elt} {ts : List Token} {p : List UInt8} {cs : List (List UInt8)}
    (hxs : ∀ x ∈ xs, x.HasType a.type)
    (hs : SameShape b a) (hexp : exp = a.v.length * a.nrows) (hrows : a.nrows ≠ 0)
    (hlt : n + xs.length < exp) (hw : Whole (headerSize + buf.length) (eltTokens xs))
    (hts : chunks (buf ++ tokenImage (eltTokens xs)) ts =
      (buf ++ tokenImage (eltTokens xs) ++ p) :: cs) (hp : CutOff a.type p) :
    ¬ AtElt Receives buf (eltTokens xs ++ ts) more below g exp n b := by
  have hr := @readElts_cut a b (buf ++ tokenImage (eltTokens xs) ++ p) exp buf.length n xs p
    hxs hs hexp hrows hlt ⟨buf, [], rfl, by rw [List.append_nil, List.append_assoc]⟩
    (by rw [List.length_append, List.length_append]) hp
  rw [AtElt, Rcv, chunks_whole ts hw, hts, List.cons_append, receives_turn goes_above, turn_elts]
  rcases hr with hr | hr
  · rw [hr]
    exact id
  · rw [hr]
    exact id

/-! ## All chunks -/

/-- The elements that go into the chunk, and those that begin the next one. -/
theorem split_elts {xs : List Elt} {buf : List UInt8}
    (hw : EachWhole (headerSize + buf.length) (xs.map Elt.tokens)) :
    ∃ ys zs, xs = ys ++ zs ∧ Whole (headerSize + buf.length) (eltTokens ys) ∧
      (zs = [] ∧ fill buf (xs.map Elt.tokens) = buf ++ tokenImage (eltTokens ys) ∨
        zs ≠ [] ∧ buf ++ tokenImage (eltTokens ys) ≠ [] ∧
          (∀ ts, chunks (buf ++ tokenImage (eltTokens ys)) (eltTokens zs ++ ts) =
            (buf ++ tokenImage (eltTokens ys)) :: chunks [] (eltTokens zs ++ ts)) ∧
          EachWhole (headerSize + ([] : List UInt8).length) (zs.map Elt.tokens) ∧
          fill buf (xs.map Elt.tokens) = fill [] (zs.map Elt.tokens)) := by
  induction xs generalizing buf with
  | nil => exact ⟨[], [], rfl, trivial, .inl ⟨rfl, (List.append_nil _).symm⟩⟩
  | cons x xs ih =>
      rw [List.map_cons] at hw
      obtain ⟨hx, hxs⟩ := eachWhole_cons.mp hw
      rcases chunks_item hx with hb | ⟨hne, hb, hc⟩
      · rw [hb] at hx hxs
        obtain ⟨ys, zs, rfl, hys, h⟩ := ih hxs
        refine ⟨x :: ys, zs, rfl, ?_, ?_⟩
        · rw [List.length_append, ← Nat.add_assoc] at hys
          exact whole_append.mpr ⟨hx, hys⟩
        · rw [List.map_cons, fill, hb, eltTokens_cons, tokenImage_append, ← List.append_assoc]
          exact h
      · refine ⟨[], x :: xs, rfl, trivial, .inr ⟨List.cons_ne_nil _ _, ?_, fun ts => ?_, ?_, ?_⟩⟩
        · rwa [eltTokens_nil, tokenImage_nil, List.append_nil]
        · rw [eltTokens_nil, tokenImage_nil, List.append_nil, eltTokens_cons, List.append_assoc, hc]
        · rw [List.map_cons, eachWhole_cons, base_nil]
          rw [hb] at hx hxs
          exact ⟨hx, hxs⟩
        · rw [List.map_cons, fill, fill, hb, base_nil]

/-- What is left of some elements, with the start of a chunk before what is filled. -/
def left (xs : List Elt) (buf : List UInt8) : Nat := 2 * xs.length + if buf = [] then 0 else 1

theorem left_split {ys zs : List Elt} {buf : List UInt8}
    (h : buf ++ tokenImage (eltTokens ys) ≠ []) : left zs [] < left (ys ++ zs) buf := by
  rw [left, left, if_pos rfl, List.length_append]
  cases ys with
  | nil =>
      rw [eltTokens_nil, tokenImage_nil, List.append_nil] at h
      rw [if_neg h, List.length_nil]
      omega
  | cons y ys =>
      rw [List.length_cons]
      omega

/-- Elements that are whole, and then tokens of which a chunk ends with a part. -/
theorem atElt_cutOff {below : List ValState} {xs : List Elt} {ts : List Token} {p : List UInt8}
    {cs : List (List UInt8)} (hxs : ∀ x ∈ xs, x.HasType a.type)
    (hs : SameShape b a) (hexp : exp = a.v.length * a.nrows) (hrows : a.nrows ≠ 0)
    (hlt : n + xs.length < exp) (hw : EachWhole (headerSize + buf.length) (xs.map Elt.tokens))
    (hp : CutOff a.type p)
    (hts : chunks (fill buf (xs.map Elt.tokens)) ts = (fill buf (xs.map Elt.tokens) ++ p) :: cs ∨
      chunks (fill buf (xs.map Elt.tokens)) ts =
          fill buf (xs.map Elt.tokens) :: chunks [] ts ∧ chunks [] ts = p :: cs) :
    ¬ AtElt Receives buf (eltTokens xs ++ ts) more below g exp n b := by
  induction hk : left xs buf using Nat.strong_induction_on generalizing xs buf n b with
  | _ k ih =>
      subst hk
      obtain ⟨ys, zs, rfl, hys, ⟨rfl, hf⟩ | ⟨hzs, hne, hc, hw', hf⟩⟩ := split_elts hw
      · rw [List.append_nil] at *
        rw [hf] at hts
        rcases hts with hts | ⟨hts, hcut⟩
        · exact atElt_cut hxs hs hexp hrows hlt hys hts hp
        · obtain ⟨b', hs', -, h⟩ := @atElt_next a b exp n below g buf more Receives _ ys ts hxs hs
            hexp hrows hlt hys hts
          rw [h]
          exact @atElt_cut a b' exp _ below g [] more [] ts p cs
            (fun x hx => absurd hx List.not_mem_nil) hs' hexp hrows hlt trivial hcut hp
      · obtain ⟨hxy, hxz⟩ := List.forall_mem_append.mp hxs
        rw [List.length_append] at hlt
        rw [hf] at hts
        obtain ⟨b', hs', -, h⟩ := @atElt_next a b exp n below g buf more Receives _ ys
          (eltTokens zs ++ ts) hxy hs hexp hrows (by omega) hys (hc ts)
        rw [eltTokens_append, List.append_assoc, h]
        exact ih _ (left_split hne) hxz hs' (by omega) hw' hts rfl

end Ztsdb.Net
