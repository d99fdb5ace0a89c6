import Mathlib
import Ztsdb.Net.ReadElts

/-!
# The elements that are kept

The array that is read has the extents of the one that was written. It also has its
elements, up to the place where the reader is, and its names and flags, as long as strings
end within their buffers and a column of strings or bools with its flag set is ascending:
such a column is filled with `setv_checkbefore`, which takes the flag away otherwise.
-/

namespace Ztsdb.Net

open Ztsdb.Lib Ztsdb.Arr

/-- The elements of an array, column by column. -/
def VArray.elts (a : VArray) : List Elt := a.v.flatMap Column.v

/-- An array whose strings end within their buffers, and whose flags are right where they
are looked at again. -/
structure VArray.Sound (a : VArray) : Prop extends a.Valid where
  names_end : ∀ nm ∈ a.names, ∀ s ∈ nm, s.chars.length < Arr.STRING_SIZE
  strings_end : ∀ s, .string s ∈ a.elts → s.chars.length < Arr.STRING_SIZE
  ascending : a.type.slow = true → ∀ c ∈ a.v, c.ordered = true →
    c.v.IsChain fun x y => x.less y = true

/-- An array with the names, the flags and the first `n` elements of another one. -/
structure Kept (a : VArray) (n : Nat) (b : VArray) : Prop where
  names : b.names = a.names
  flags : b.v.map Column.ordered = a.v.map Column.ordered
  elts : b.elts.take n = a.elts.take n

/-! ## Columns of equal length -/

section Columns

variable {v : List Column} {d col i : Nat} {column : Column}

theorem take_columns (h : ∀ c ∈ v, c.v.length = d) (hget : v[col]? = some column) (hi : i ≤ d) :
    (v.flatMap Column.v).take (col * d + i) = (v.take col).flatMap Column.v ++ column.v.take i := by
  induction v generalizing col with
  | nil => cases hget
  | cons c v ih =>
      obtain ⟨hc, hv⟩ := List.forall_mem_cons.mp h
      cases col with
      | zero =>
          cases hget
          rw [Nat.zero_mul, Nat.zero_add, List.flatMap_cons, List.take_append_of_le_length (by omega)]
          rfl
      | succ col =>
          have hadd : (col + 1) * d + i = c.v.length + (col * d + i) := by
            rw [Nat.succ_mul, hc]
            omega
          rw [List.flatMap_cons, hadd, List.take_length_add_append, ih hv hget, List.take_succ_cons,
            List.flatMap_cons, List.append_assoc]

theorem drop_columns (h : ∀ c ∈ v, c.v.length = d) (hget : v[col]? = some column) (hi : i ≤ d) :
    (v.flatMap Column.v).drop (col * d + i) =
      column.v.drop i ++ (v.drop (col + 1)).flatMap Column.v := by
  induction v generalizing col with
  | nil => cases hget
  | cons c v ih =>
      obtain ⟨hc, hv⟩ := List.forall_mem_cons.mp h
      cases col with
      | zero =>
          cases hget
          rw [Nat.zero_mul, Nat.zero_add, List.flatMap_cons, List.drop_append_of_le_length (by omega)]
          rfl
      | succ col =>
          have hadd : (col + 1) * d + i = c.v.length + (col * d + i) := by
            rw [Nat.succ_mul, hc]
            omega
          rw [List.flatMap_cons, hadd, List.drop_length_add_append, ih hv hget, List.drop_succ_cons]

/-- Columns of the same lengths that hold the same elements. -/
theorem columns_eq {v w : List Column} (hv : ∀ c ∈ v, c.v.length = d) (hw : ∀ c ∈ w, c.v.length = d)
    (hf : v.map Column.ordered = w.map Column.ordered)
    (he : v.flatMap Column.v = w.flatMap Column.v) : v = w := by
  induction v generalizing w with
  | nil =>
      cases w with
      | nil => rfl
      | cons c w => cases hf
  | cons c v ih =>
      cases w with
      | nil => cases hf
      | cons c' w =>
          obtain ⟨hc, hv⟩ := List.forall_mem_cons.mp hv
          obtain ⟨hc', hw⟩ := List.forall_mem_cons.mp hw
          obtain ⟨hf, hfs⟩ := List.cons.inj hf
          obtain ⟨he, hes⟩ := List.append_inj he (hc.trans hc'.symm)
          rw [ih hv hw hfs hes]
          congr 1
          cases c
          cases c'
          cases hf
          cases he
          rfl

end Columns

/-! ## One column is written -/

variable {a b b' : VArray} {c : List UInt8} {exp col coloff off off' n : Nat} {column column' : Column}
  {xs : List Elt}

/-- Elements are added to the end of what a column has. -/
theorem Kept.set (hk : Kept a n b) (hs : SameShape b a) (hn : col * a.nrows + coloff = n)
    (hget : b.v[col]? = some column) (hlen : column'.v.length = a.nrows)
    (hle : coloff + xs.length ≤ a.nrows)
    (hv : column'.v.take (coloff + xs.length) = column.v.take coloff ++ xs)
    (hf : column'.ordered = column.ordered) (hxs : xs <+: a.elts.drop n) :
    Kept a (n + xs.length) { b with v := b.v.set col column' } where
  names := hk.names
  flags := by
    rw [← hk.flags, List.map_set, hf]
    refine List.ext_getElem? fun j => ?_
    rw [List.getElem?_set]
    split
    · next h =>
        subst h
        rw [List.getElem?_map, hget, List.length_map, if_pos (List.getElem?_eq_some_iff.mp hget).1]
        rfl
    · rfl
  elts := by
    have hcol := (List.getElem?_eq_some_iff.mp hget).1
    have hset : (b.v.set col column')[col]? = some column' := by
      rw [List.getElem?_set_self hcol]
    have hrows : ∀ c ∈ b.v.set col column', c.v.length = a.nrows := by
      intro c hc
      rcases List.mem_or_eq_of_mem_set hc with hm | rfl
      · exact hs.nrows c hm
      · exact hlen
    have hnew : (b.v.set col column').flatMap Column.v = VArray.elts { b with v := b.v.set col column' } :=
      rfl
    calc (VArray.elts { b with v := b.v.set col column' }).take (n + xs.length)
        = (b.v.take col).flatMap Column.v ++ (column.v.take coloff ++ xs) := by
          rw [← hnew, ← hn, Nat.add_assoc, take_columns hrows hset hle, List.take_set_of_le (Nat.le_refl _),
            hv]
      _ = b.elts.take n ++ xs := by
          rw [VArray.elts, ← hn, take_columns hs.nrows hget (by omega), List.append_assoc]
      _ = a.elts.take (n + xs.length) := by
          rw [hk.elts, List.take_add, ← List.prefix_iff_eq_take.mp hxs]

/-- What is left to be added. -/
theorem prefix_drop_add {α : Type} {l ys zs : List α} (h : ys ++ zs <+: l.drop n) :
    zs <+: l.drop (n + ys.length) := by
  obtain ⟨ws, hws⟩ := h
  refine ⟨ws, ?_⟩
  rw [← List.drop_drop, ← hws, List.append_assoc, List.drop_left]

/-- What is there of an array is the array, when it is all there. -/
theorem Kept.eq (hk : Kept a n b) (hs : SameShape b a) (hr : ∀ c ∈ a.v, c.v.length = a.nrows)
    (hn : a.v.length * a.nrows ≤ n) : b = a := by
  have hlen {v : List Column} (h : ∀ c ∈ v, c.v.length = a.nrows) :
      (v.flatMap Column.v).length = v.length * a.nrows := by
    rw [List.length_flatMap, List.map_congr_left h, List.map_const', List.sum_replicate, smul_eq_mul]
  have he := hk.elts
  have hla := hlen hr
  have hlb := hlen hs.nrows
  rw [hs.ncols] at hlb
  rw [List.take_of_length_le (by rw [VArray.elts, hlb]; exact hn),
    List.take_of_length_le (by rw [VArray.elts, hla]; exact hn)] at he
  have hv := columns_eq hs.nrows hr hk.flags he
  have hnames := hk.names
  have htype := hs.type
  have hdim := hs.dim
  cases a
  cases b
  cases hv
  cases hnames
  cases htype
  cases hdim
  rfl

theorem VArray.Sound.types_of_prefix (h : a.Sound) (hxs : xs <+: a.elts.drop n) :
    ∀ x ∈ xs, x.HasType a.type := by
  intro x hx
  obtain ⟨c, hc, hxc⟩ := List.mem_flatMap.mp (List.mem_of_mem_drop (hxs.subset hx))
  exact h.types c hc x hxc

/-! ## The loop that copies -/

/-- An element is read as it was written. -/
theorem EltType.ofBytes_at {x : Elt} {t : EltType} (h : x.HasType t) (ht : t.slow = false)
    (hat : At c off (tokenImage x.tokens)) : t.ofBytes (slice off t.sizeof c) = x := by
  have hs := hat.slice
  rw [Elt.length_copied h ht] at hs
  rw [hs]
  have hword (n : UInt64) : leNat (leBytes 8 n.toNat) = n.toNat := by
    rw [leNat_leBytes, Nat.mod_eq_of_lt (by have := n.toNat_lt; omega)]
  have hhalf (n : UInt32) : leNat (leBytes 4 n.toNat) = n.toNat := by
    rw [leNat_leBytes, Nat.mod_eq_of_lt (by have := n.toNat_lt; omega)]
  cases x with
  | word n =>
      have hw : t.ofBytes (leBytes 8 n.toNat) = .word (UInt64.ofNat (leNat (leBytes 8 n.toNat))) := by
        rcases h with rfl | rfl | rfl
        · rfl
        · rfl
        · rfl
      rw [Elt.tokens, tokenImage_cons, tokenImage_nil, List.append_nil, Token.image, hw, hword,
        UInt64.ofNat_toNat]
  | bool v =>
      cases (show t = .bool from h)
      cases ht
  | interval s e sopen eopen =>
      cases (show t = .interval from h)
      have himage : tokenImage (Elt.interval s e sopen eopen).tokens = leBytes 8 s.toNat ++
          (leBytes 8 e.toNat ++ (leBytes 4 sopen.toNat ++ (leBytes 4 eopen.toNat ++ []))) := rfl
      have h0 := slice_append_left (leBytes 8 s.toNat)
        (leBytes 8 e.toNat ++ (leBytes 4 sopen.toNat ++ (leBytes 4 eopen.toNat ++ [])))
      have h8 := @slice_append_right (leBytes 8 s.toNat) (leBytes 8 e.toNat)
        (leBytes 4 sopen.toNat ++ (leBytes 4 eopen.toNat ++ [])) 8 (length_leBytes _ _).symm
      have h16 := @slice_append_right (leBytes 8 s.toNat ++ leBytes 8 e.toNat) (leBytes 4 sopen.toNat)
        (leBytes 4 eopen.toNat ++ []) 4 (length_leBytes _ _).symm
      have h20 := @slice_append_right (leBytes 8 s.toNat ++ leBytes 8 e.toNat ++ leBytes 4 sopen.toNat)
        (leBytes 4 eopen.toNat) [] 4 (length_leBytes _ _).symm
      simp only [List.append_assoc, List.length_append, length_leBytes, Nat.reduceAdd] at h0 h8 h16 h20
      rw [himage, EltType.ofBytes]
      simp only [h0, h8, h16, h20, hword, hhalf, UInt64.ofNat_toNat, UInt32.ofNat_toNat]
  | period months days dur =>
      cases (show t = .period from h)
      have himage : tokenImage (Elt.period months days dur).tokens = leBytes 4 months.toNat ++
          (leBytes 4 days.toNat ++ (leBytes 8 dur.toNat ++ [])) := rfl
      have h0 := slice_append_left (leBytes 4 months.toNat)
        (leBytes 4 days.toNat ++ (leBytes 8 dur.toNat ++ []))
      have h4 := @slice_append_right (leBytes 4 months.toNat) (leBytes 4 days.toNat)
        (leBytes 8 dur.toNat ++ []) 4 (length_leBytes _ _).symm
      have h8 := @slice_append_right (leBytes 4 months.toNat ++ leBytes 4 days.toNat)
        (leBytes 8 dur.toNat) [] 8 (length_leBytes _ _).symm
      simp only [List.append_assoc, List.length_append, length_leBytes, Nat.reduceAdd] at h0 h4 h8
      rw [himage, EltType.ofBytes]
      simp only [h0, h4, h8, hword, hhalf, UInt64.ofNat_toNat, UInt32.ofNat_toNat]
  | string s =>
      cases (show t = .string from h)
      cases ht

theorem EltType.ofBytes_elts {t : EltType} (h : ∀ x ∈ xs, x.HasType t) (ht : t.slow = false)
    (hat : At c off (tokenImage (eltTokens xs))) :
    ((List.range xs.length).map fun i => t.ofBytes (slice (off + t.sizeof * i) t.sizeof c)) = xs := by
  induction xs generalizing off with
  | nil => rfl
  | cons x xs ih =>
      obtain ⟨hx, hxs⟩ := List.forall_mem_cons.mp h
      rw [eltTokens_cons, tokenImage_append] at hat
      have hr := hat.right
      rw [Elt.length_copied hx ht] at hr
      have htail : ((List.range xs.length).map fun i =>
          t.ofBytes (slice (off + t.sizeof * (i + 1)) t.sizeof c)) = xs := by
        have h := ih hxs hr
        simpa only [Nat.mul_add, Nat.mul_one, Nat.add_assoc, Nat.add_comm t.sizeof] using h
      rw [List.length_cons, List.range_succ_eq_map, List.map_cons, List.map_map, Nat.mul_zero,
        Nat.add_zero, EltType.ofBytes_at hx ht hat.left]
      exact congrArg (x :: ·) htail

theorem copyElts_le {n' : Nat} (h : copyElts c exp col coloff off n b = .done off' n' b') :
    n ≤ n' := by
  induction hk : exp - n using Nat.strong_induction_on generalizing col coloff off n b with
  | _ k ih =>
      subst hk
      rw [copyElts] at h
      simp only at h
      split at h
      · next hlt =>
          split at h
          · cases h
          · split at h
            · cases h
            · next h0 =>
                generalize min (min (exp - n) ((c.length - off) / b.type.sizeof)) (b.nrows - coloff) = m
                  at h0 h
                split at h
                · exact Nat.le_trans (Nat.le_add_right n m) (ih (exp - (n + m)) (by omega) h rfl)
                · exact Nat.le_trans (Nat.le_add_right n m) (ih (exp - (n + m)) (by omega) h rfl)
      · cases h
        exact Nat.le_refl _

/-- A copy into a column of the array. -/
theorem Kept.copyTo (hk : Kept a n b) (hs : SameShape b a) (hn : col * a.nrows + coloff = n)
    (hget : b.v[col]? = some column) (hle : coloff + xs.length ≤ a.nrows)
    (hxs : xs <+: a.elts.drop n) :
    SameShape { b with type := a.type, v := b.v.set col (column.copyTo coloff xs) } a ∧
      Kept a (n + xs.length)
        { b with type := a.type, v := b.v.set col (column.copyTo coloff xs) } := by
  have hclen := hs.nrows column (List.mem_of_getElem? hget)
  have hlen : (column.copyTo coloff xs).v.length = a.nrows := by
    simp only [Column.copyTo, List.length_append, List.length_take, List.length_drop]
    omega
  have hcopy : (column.copyTo coloff xs).v.take (coloff + xs.length) =
      column.v.take coloff ++ xs := by
    rw [Column.copyTo]
    refine List.take_left' ?_
    rw [List.length_append, List.length_take]
    omega
  have hk' := hk.set hs hn hget hlen hle hcopy rfl hxs
  rw [hs.type] at hk'
  exact ⟨hs.set col hlen, hk'⟩

/-- A column that a round does not fill is what the chunk or the array ends with. -/
theorem copy_stops {left size rows m : Nat} (hsize : 0 < size)
    (hm : min (min (exp - n) (left / size)) (rows - coloff) = m) (hgo : n < exp)
    (hrows : coloff + m ≠ rows) (hlt : coloff < rows) :
    n + m = exp ∨ n + m < exp ∧ left - size * m < size := by
  by_cases hexp : n + m = exp
  · exact .inl hexp
  · have hq : left / size = m := by omega
    have hmod := Nat.div_add_mod left size
    have hrem := Nat.mod_lt left hsize
    rw [hq] at hmod
    exact .inr ⟨by omega, by omega⟩

/-- What is copied is what was written. -/
theorem copyElts_kept (hs : SameShape b a) (h : a.Sound) (ht : a.type.slow = false)
    (hk : Kept a n b) (hn : col * a.nrows + coloff = n) (hlt : coloff < a.nrows)
    (hxs : xs <+: a.elts.drop n) (hat : At c off (tokenImage (eltTokens xs)))
    (hr : copyElts c exp col coloff off n b = .done off' (n + xs.length) b') :
    Kept a (n + xs.length) b' := by
  induction hj : exp - n using Nat.strong_induction_on generalizing xs col coloff off n b with
  | _ j ih =>
      subst hj
      rw [copyElts] at hr
      simp only [hs.type, hs.nrows_eq] at hr
      split at hr
      · next hgo =>
          split at hr
          · cases hr
          · next column hget =>
              split at hr
              · cases hr
              · next h0 =>
                  generalize hm : min (min (exp - n) ((c.length - off) / a.type.sizeof))
                    (a.nrows - coloff) = m at h0 hr
                  have hcol := (List.getElem?_eq_some_iff.mp hget).1
                  -- the round does not go further than the loop
                  have hle : m ≤ xs.length := by
                    split at hr
                    · have := copyElts_le hr
                      omega
                    · have := copyElts_le hr
                      omega
                  obtain ⟨ys, zs, hyz, rfl⟩ : ∃ ys zs, xs = ys ++ zs ∧ ys.length = m :=
                    ⟨xs.take m, xs.drop m, (List.take_append_drop m xs).symm, by
                      rw [List.length_take]
                      omega⟩
                  subst hyz
                  have hys : ys <+: a.elts.drop n := (List.prefix_append ys zs).trans hxs
                  rw [eltTokens_append, tokenImage_append] at hat
                  have htypes := h.types_of_prefix hys
                  have hbytes := EltType.ofBytes_elts htypes ht hat.left
                  rw [hbytes] at hr
                  have hrest := hat.right
                  rw [length_eltTokens htypes ht] at hrest
                  obtain ⟨hs', hk'⟩ := hk.copyTo hs hn hget (by omega) hys
                  rw [List.length_append, ← Nat.add_assoc] at hr ⊢
                  have hzs := prefix_drop_add hxs
                  split at hr
                  · next hfull =>
                      have hplace : (col + 1) * a.nrows + 0 = n + ys.length := by
                        rw [Nat.succ_mul]
                        omega
                      exact ih _ (by omega) hs' hk' hplace (by omega) hzs hrest hr rfl
                  · next hfull =>
                      have hend := copy_stops a.type.sizeof_pos hm hgo.1 hfull hlt
                      rw [Nat.sub_sub] at hend
                      have hle := hat.left.length_le
                      rw [length_eltTokens htypes ht] at hle
                      rw [copyElts_none hs' (Nat.add_sub_of_le hle).symm (fun _ => hs.ncols ▸ hcol) hend]
                        at hr
                      split at hr
                      · obtain ⟨-, hzs, hb⟩ := EltLoop.done.inj hr
                        have h0 : zs.length = 0 := by omega
                        rw [h0, ← hb]
                        exact hk'
                      · cases hr
      · obtain ⟨-, -, rfl⟩ := EltLoop.done.inj hr
        have h0 : xs.length = 0 := by
          have := (EltLoop.done.inj hr).2.1
          omega
        rw [h0]
        exact hk

/-! ## The loop that reads one element at a time -/

theorem readSlow_le {n' : Nat} (h : readSlow c exp col coloff off n b = .done off' n' b') :
    n ≤ n' := by
  induction hk : exp - n using Nat.strong_induction_on generalizing col coloff off n b with
  | _ k ih =>
      subst hk
      rw [readSlow] at h
      simp only at h
      split at h
      · next hlt =>
          split at h
          · cases h
          · split at h
            · cases h
            · split at h
              · cases h
              · split at h
                · exact Nat.le_trans (Nat.le_add_right n 1) (ih (exp - (n + 1)) (by omega) h rfl)
                · exact Nat.le_trans (Nat.le_add_right n 1) (ih (exp - (n + 1)) (by omega) h rfl)
      · cases h
        exact Nat.le_refl _

/-- The next element goes behind those that are there in its column, and is more than the
last of them if the flag is set. -/
theorem Kept.ascends {x : Elt} (hk : Kept a n b) (hs : SameShape b a) (h : a.Sound)
    (ht : a.type.slow = true) (hn : col * a.nrows + coloff = n) (hget : b.v[col]? = some column)
    (hlt : coloff < a.nrows) (hxs : x :: xs <+: a.elts.drop n) (ho : column.ordered = true)
    (h0 : coloff ≠ 0) : ∃ y, column.v[coloff - 1]? = some y ∧ y.less x = true := by
  have hcol := (List.getElem?_eq_some_iff.mp hget).1
  obtain ⟨acol, hacol⟩ : ∃ acol, a.v[col]? = some acol :=
    ⟨_, List.getElem?_eq_getElem (hs.ncols ▸ hcol)⟩
  have hmem := List.mem_of_getElem? hacol
  have hlen := hs.nrows column (List.mem_of_getElem? hget)
  have halen := h.nrows acol hmem
  have hflag : acol.ordered = true := by
    have hf := congrArg (·[col]?) hk.flags
    simp only [List.getElem?_map, hget, hacol, Option.map_some, Option.some.injEq] at hf
    rw [← hf, ho]
  have htake : column.v.take coloff = acol.v.take coloff := by
    have he := hk.elts
    rw [VArray.elts, VArray.elts, ← hn, take_columns hs.nrows hget (by omega),
      take_columns h.nrows hacol (by omega)] at he
    exact (List.append_inj' he (by rw [List.length_take, List.length_take, hlen, halen])).2
  have hx : acol.v[coloff]? = some x := by
    obtain ⟨ws, hws⟩ := hxs
    rw [VArray.elts, ← hn, drop_columns h.nrows hacol (by omega)] at hws
    have hhead := congrArg (·[0]?) hws
    simp only [List.cons_append, List.getElem?_cons_zero] at hhead
    rw [List.getElem?_append_left (by rw [List.length_drop]; omega), List.getElem?_drop,
      Nat.add_zero] at hhead
    exact hhead.symm
  have hy : acol.v[coloff - 1]? = some acol.v[coloff - 1] := List.getElem?_eq_getElem (by omega)
  have hsplit : acol.v = acol.v.take (coloff - 1) ++
      acol.v[coloff - 1] :: x :: acol.v.drop (coloff - 1 + 1 + 1) := by
    have hone : coloff - 1 + 1 = coloff := by omega
    obtain ⟨hxlt, hxe⟩ := List.getElem?_eq_some_iff.mp hx
    have h1 := (List.drop_eq_getElem_cons (show coloff - 1 < acol.v.length by omega))
    have h2 := (List.drop_eq_getElem_cons hxlt)
    rw [hxe, ← hone] at h2
    rw [h2] at h1
    rw [← h1, List.take_append_drop]
  refine ⟨acol.v[coloff - 1], ?_, ?_⟩
  · rw [← hy, ← List.getElem?_take_of_lt (show coloff - 1 < coloff by omega), htake,
      List.getElem?_take_of_lt (by omega)]
  · exact List.isChain_iff_forall_rel_of_append_cons_cons.mp (h.ascending ht acol hmem hflag) hsplit

/-- A write into a column of the array leaves its flag. -/
theorem Kept.setv_checkbefore {x : Elt} (hk : Kept a n b) (hs : SameShape b a) (h : a.Sound)
    (ht : a.type.slow = true) (hn : col * a.nrows + coloff = n) (hget : b.v[col]? = some column)
    (hlt : coloff < a.nrows) (hxs : x :: xs <+: a.elts.drop n)
    (hset : column.setv_checkbefore coloff x = some column') :
    SameShape { b with type := a.type, v := b.v.set col column' } a ∧
      Kept a (n + 1) { b with type := a.type, v := b.v.set col column' } := by
  have hlen := hs.nrows column (List.mem_of_getElem? hget)
  rw [Column.setv_checkbefore, if_neg (by omega)] at hset
  cases hset
  have hv : (column.v.set coloff x).take (coloff + [x].length) = column.v.take coloff ++ [x] := by
    rw [List.set_eq_take_append_cons_drop, if_pos (by omega), List.append_cons]
    refine List.take_left' ?_
    rw [List.length_append, List.length_take]
    omega
  have hf : (column.ordered && (coloff == 0 ||
      ((column.v.set coloff x)[coloff - 1]?.any fun y => y.less x))) = column.ordered := by
    by_cases ho : column.ordered = true
    · by_cases h0 : coloff = 0
      · rw [ho, h0]
        rfl
      · obtain ⟨y, hy, hless⟩ := hk.ascends hs h ht hn hget hlt hxs ho h0
        rw [List.getElem?_set_ne (by omega), hy, ho]
        simp [hless]
    · rw [Bool.not_eq_true] at ho
      rw [ho, Bool.false_and]
  have hone : [x] <+: a.elts.drop n := (List.prefix_append [x] xs).trans hxs
  have hk' := @Kept.set a b col coloff n column ⟨_, column.v.set coloff x⟩ [x] hk hs hn hget
    ((List.length_set ..).trans hlen) (by simpa using hlt) hv hf hone
  rw [hs.type] at hk'
  exact ⟨hs.set col ((List.length_set ..).trans hlen), hk'⟩

/-- What is read one at a time is what was written. -/
theorem readSlow_kept (hs : SameShape b a) (h : a.Sound) (ht : a.type.slow = true)
    (hk : Kept a n b) (hn : col * a.nrows + coloff = n) (hlt : coloff < a.nrows)
    (hxs : xs <+: a.elts.drop n) (hat : At c off (tokenImage (eltTokens xs)))
    (hr : readSlow c exp col coloff off n b = .done off' (n + xs.length) b') :
    Kept a (n + xs.length) b' := by
  induction xs generalizing col coloff off n b with
  | nil =>
      rw [readSlow] at hr
      simp only at hr
      split at hr
      · split at hr
        · cases hr
        · split at hr
          · cases hr
          · split at hr
            · cases hr
            · split at hr
              · exact absurd (readSlow_le hr) (by simp)
              · exact absurd (readSlow_le hr) (by simp)
      · obtain ⟨-, -, hb⟩ := EltLoop.done.inj hr
        rw [← hb]
        exact hk
  | cons x xs ih =>
      have hx : x.HasType a.type := h.types_of_prefix hxs x List.mem_cons_self
      have hrest : xs <+: a.elts.drop (n + 1) := @prefix_drop_add n _ _ [x] xs hxs
      have hstr : ∀ s, x = .string s → s.chars.length < Arr.STRING_SIZE := by
        rintro s rfl
        exact h.strings_end s (List.mem_of_mem_drop (hxs.subset List.mem_cons_self))
      rw [eltTokens_cons, tokenImage_append] at hat
      obtain ⟨y, hy, hyx⟩ := getEltFromBuffer_at hx ht hat.left
      rw [hyx hstr] at hy
      rw [readSlow] at hr
      simp only [hs.type, hs.nrows_eq, hy] at hr
      split at hr
      · split at hr
        · cases hr
        · next column hget =>
            split at hr
            · cases hr
            · next column' hset =>
                obtain ⟨hs', hk'⟩ := hk.setv_checkbefore hs h ht hn hget hlt hxs hset
                rw [List.length_cons, Nat.add_comm xs.length, ← Nat.add_assoc] at hr ⊢
                split at hr
                · next hfull =>
                    have hplace : (col + 1) * a.nrows + 0 = n + 1 := by
                      rw [Nat.succ_mul]
                      omega
                    exact ih hs' hk' hplace (by omega) hrest hat.right hr
                · next hfull =>
                    have hplace : col * a.nrows + (coloff + 1) = n + 1 := by omega
                    exact ih hs' hk' hplace (by omega) hrest hat.right hr
      · have := (EltLoop.done.inj hr).2.1
        rw [List.length_cons] at this
        omega

/-! ## A call of the loops -/

theorem readElts_kept (hs : SameShape b a) (h : a.Sound) (hk : Kept a n b)
    (hxs : xs <+: a.elts.drop n) (hat : At c off (tokenImage (eltTokens xs)))
    (hr : readEltsFromBuffer c exp off n b = .done off' (n + xs.length) b') :
    Kept a (n + xs.length) b' := by
  rw [readEltsFromBuffer] at hr
  simp only [hs.type, hs.nrows_eq] at hr
  split at hr
  · cases hr
  · split at hr
    · cases hr
    · next h0 =>
        have hmod := Nat.mod_lt n (Nat.pos_of_ne_zero h0)
        split at hr
        · next ht => exact readSlow_kept hs h ht hk (place_eq n a.nrows) hmod hxs hat hr
        · next ht =>
            exact copyElts_kept hs h (Bool.not_eq_true _ ▸ ht) hk (place_eq n a.nrows) hmod hxs hat hr

/-! ## The elements of an array, chunk by chunk -/

variable {below : List ValState} {g : ValState} {buf : List UInt8} {ts : List Token}
  {more : List (List UInt8)} {R : Reader → List (List UInt8) → Prop} [Observes R]

/-- What becomes of an array while elements are read. -/
structure Fills (a : VArray) (n : Nat) (xs : List Elt) (b b' : VArray) : Prop where
  shape : SameShape b' a
  kept : a.Sound → xs <+: a.elts.drop n → Kept a n b → Kept a (n + xs.length) b'

/-- The last elements. -/
theorem atElt_last (hxs : ∀ x ∈ xs, x.HasType a.type) (hs : SameShape b a)
    (hexp : exp = a.v.length * a.nrows) (hrows : a.nrows ≠ 0) (hn : n + xs.length = exp)
    (hw : Whole (headerSize + buf.length) (eltTokens xs)) :
    ∃ b', Fills a n xs b b' ∧ (AtElt R buf (eltTokens xs ++ ts) more below g exp n b ↔
      Rcv R (buf ++ tokenImage (eltTokens xs)) ts more (below ++ [⟨.array b', exp, exp, 1⟩])
        below.length) := by
  obtain ⟨tail, cs, hc⟩ := chunks_head (buf ++ tokenImage (eltTokens xs)) ts
  have hat : At (buf ++ tokenImage (eltTokens xs) ++ tail) buf.length (tokenImage (eltTokens xs)) :=
    ⟨buf, tail, rfl, List.append_assoc ..⟩
  obtain ⟨b', hs', hr⟩ := @readElts_done a b _ exp buf.length n xs hxs hs hexp hrows
    (Nat.le_of_eq hn) hat (.inl hn)
  have hturn := @turn_elts below g (buf ++ tokenImage (eltTokens xs) ++ tail) buf.length b exp n
  rw [hr] at hturn
  simp only [if_neg (show ¬ (buf.length + (tokenImage (eltTokens xs)).length =
    (buf ++ tokenImage (eltTokens xs) ++ tail).length ∧ n + xs.length < exp) by omega), if_pos hn] at hturn
  refine ⟨b', ⟨hs', fun h hp hk => readElts_kept hs h hk hp hat hr⟩, ?_⟩
  rw [AtElt, Rcv, Rcv, chunks_whole ts hw, hc, List.cons_append, List.length_append]
  rw [hn] at hturn
  exact Observes.again goes_above hturn _

/-- Elements that are whole, up to the last one. -/
theorem atElt_whole (hxs : ∀ x ∈ xs, x.HasType a.type)
    (hs : SameShape b a) (hexp : exp = a.v.length * a.nrows) (hrows : a.nrows ≠ 0)
    (hn : n + xs.length = exp) (hw : EachWhole (headerSize + buf.length) (xs.map Elt.tokens)) :
    ∃ b', Fills a n xs b b' ∧ (AtElt R buf (eltTokens xs ++ ts) more below g exp n b ↔
      Rcv R (fill buf (xs.map Elt.tokens)) ts more (below ++ [⟨.array b', exp, exp, 1⟩])
        below.length) := by
  induction hk : left xs buf using Nat.strong_induction_on generalizing xs buf n b with
  | _ k ih =>
      subst hk
      obtain ⟨ys, zs, rfl, hys, ⟨rfl, hf⟩ | ⟨hzs, hne, hc, hw', hf⟩⟩ := split_elts hw
      · rw [List.append_nil] at *
        rw [hf]
        exact atElt_last hxs hs hexp hrows hn hys
      · obtain ⟨hxy, hxz⟩ := List.forall_mem_append.mp hxs
        rw [List.length_append] at hn
        have hpos := List.length_pos_of_ne_nil hzs
        obtain ⟨b₁, hs₁, hr, hnext⟩ := @atElt_next a b exp n below g buf more R _ ys
          (eltTokens zs ++ ts) hxy hs hexp hrows (by omega) hys (hc ts)
        obtain ⟨b', hfill, hrest⟩ := ih _ (left_split hne) hxz hs₁
          (show n + ys.length + zs.length = exp by omega) hw' rfl
        refine ⟨b', ⟨hfill.shape, fun h hp hk => ?_⟩, ?_⟩
        · have hk₁ := readElts_kept hs h hk ((List.prefix_append ys zs).trans hp)
            ⟨buf, [], rfl, by rw [List.append_nil]⟩ hr
          obtain ⟨ws, hws⟩ := hp
          rw [List.length_append, ← Nat.add_assoc]
          refine hfill.kept h ⟨ws, ?_⟩ hk₁
          rw [← List.drop_drop, ← hws, List.append_assoc, List.drop_left]
        · rw [eltTokens_append, List.append_assoc, hnext, hrest, hf]

/-! ## The array before its elements -/

/-- The array that is made of its list has the names and the flags. -/
theorem VArray.Sound.made_kept (h : a.Sound)
    (hb : ((VArray.noinit a.type a.dim
        (a.names.map fun nm => nm.map fun s => ZString.ofString s.chars)).bind
      (VArray.setOrdered (a.v.map fun c => if c.ordered then 1 else 0))) = .ok b) :
    Kept a 0 b := by
  have hnames : (a.names.map fun nm => nm.map fun s => ZString.ofString s.chars) = a.names := by
    conv_rhs => rw [← List.map_id a.names]
    refine List.map_congr_left fun nm hnm => ?_
    conv_rhs => rw [id, ← List.map_id nm]
    exact List.map_congr_left fun s hs => ZString.ofString_chars (h.names_end nm hnm s hs)
  have hmis := misnamed_none h.toValid
  have hv := h.ncols
  have hn := h.names
  rw [hnames] at hb hmis
  cases hd : a.dim with
  | nil =>
      rw [hd] at hb hv hn
      have hv : a.v = [] := List.length_eq_zero_iff.mp hv
      have hn : a.names = [] := List.length_eq_zero_iff.mp hn
      rw [VArray.noinit, hv] at hb
      cases hb
      exact ⟨hn.symm, by rw [hv]; rfl, rfl⟩
  | cons d ds =>
      rw [hd] at hb hmis hn
      rw [VArray.noinit, if_neg (fun hne => hne.2 hn), hmis] at hb
      simp only [Except.bind, VArray.setOrdered, List.length_map, List.length_replicate] at hb
      rw [← hd, ← hv, if_neg (Nat.lt_irrefl _)] at hb
      cases hb
      refine ⟨?_, ?_, rfl⟩
      · rw [hd, ← hn]
        exact List.ext_getElem (by simp) fun j h1 h2 => by simp [h2]
      · refine List.ext_getElem (by simp) fun j h1 h2 => ?_
        have hj : j < a.v.length := by simpa using h2
        simp only [List.getElem_map, List.getElem_mapIdx, List.getElem_replicate, List.getElem?_map,
          List.getElem?_eq_getElem hj, Option.map_some]
        cases a.v[j].ordered
        · decide
        · decide

end Ztsdb.Net
