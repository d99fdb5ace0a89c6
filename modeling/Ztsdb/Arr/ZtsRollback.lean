import Mathlib
import Ztsdb.Arr.ArrayAppend

/-!
# What `append` does with any buffer

Of a buffer that nobody vouches for, `append` checks little: the count, the length
and the type of each column, and that the extents but the first agree. The first
extents of the two headers are added without a look at the counts, the flags are
the sender's, and what is put back after a refusal is the elements, not the flags.

`scan` reads a buffer the way the columns will, without touching them: where it
would be left outside, refused, or taken and with what rows and flags. Against it
the outcome of `append` is computed once and for all, and the condition under which
`append` takes all or nothing can be read off.

Memory is a machine's: no block has `2 ^ 62` bytes, and a vector can always go back
to the block of the rows it holds.
-/

namespace Ztsdb.Arr

open Ztsdb.Lib

/-- What a vector does with a buffer: it reads outside, refuses, or takes `n` elements
that come with a flag. -/
inductive Verdict where
  | fault
  | refused
  | taken (n : Nat) (flag : Bool)

namespace Vector

variable {T : Type} [Raw T] (O : T → T → Bool)

/-- A vector in the memory of a machine. -/
structure Hosted (s : Vector T) : Prop where
  fits : s.Fits s.size
  block : s.block < 2 ^ 62
  alloc : ∃ a, s.alloc = some a ∧ (∀ off n, a.grant off n = true → n < 2 ^ 62) ∧
    a.grant 0 (memsize (Flat.width T) (growCapacity s.size)) = true

def grants (s : Vector T) (n : Nat) : Bool :=
  match s.alloc with
  | none => false
  | some a => a.grant 0 n

/-- What the vector does with all of `mem`. -/
def verdict (mem : List UInt8) (c : Vector T) : Verdict :=
  if mem.length < sizeofRawVector then .refused
  else match readWord mem 0, readWord mem 8, readWord mem 16 with
    | some typenumber, some n, some ordered =>
      if mem.length < wrap (sizeofRawVector + wrap (n * Flat.width T)) then .refused
      else if Raw.typenumber T ≠ typenumber then .refused
      else if n ≠ 0 ∧
          c.grants (memsize (Flat.width T) (growCapacity (wrap (c.size + n)))) = false then
        .refused
      else if mem.length < sizeofRawVector + n * Flat.width T then .fault
      else .taken n (decide (ordered % 2 = 1))
    | _, _, _ => .fault

/-- What is taken lies in the buffer. -/
theorem le_of_verdict_taken {mem : List UInt8} {c : Vector T} {n : Nat} {flag : Bool}
    (h : c.verdict mem = .taken n flag) : sizeofRawVector + n * Flat.width T ≤ mem.length := by
  unfold verdict at h
  split at h
  · cases h
  · split at h
    · split at h
      · cases h
      · split at h
        · cases h
        · split at h
          · cases h
          · split at h
            · cases h
            · next hin =>
                cases h
                exact Nat.le_of_not_lt hin
    · cases h

/-- A vector finds no header past the end of memory. -/
theorem append_outside {len : Nat} {c : Vector T} (h : sizeofRawVector ≤ len) :
    c.append O [] len = .fault := by
  rw [append, if_neg (Nat.not_lt.mpr h)]
  rfl

/-- What a buffer holds for a vector: elements, and the flag they come with. -/
def piece (mem : List UInt8) (n : Nat) (flag : Bool) : List T × Bool :=
  (Flat.decode n (slice sizeofRawVector (n * Flat.width T) mem), flag)

/-- The elements and the flag after taking a piece. -/
def joined (p : List T × Bool) (c : Vector T) : List T × Bool :=
  (c.v ++ p.1, if p.1.length = 0 then c.ordered else c.ordered && p.2 && seam O c.v p.1)

/-- `c'` has the elements of `c`, maybe more behind them, and its allocator. -/
def Extends (c c' : Vector T) : Prop := (∃ l, c'.v = c.v ++ l) ∧ c'.alloc = c.alloc

theorem copyElts_outside {mem : List UInt8} {n : Nat} {flag : Bool} {old_n : Nat}
    {s : Vector T} (h : mem.length < sizeofRawVector + wrap (n * Flat.width T)) :
    copyElts O mem n flag old_n s = .fault := by
  unfold copyElts
  simp only
  rw [if_neg (by omega)]

/-- The arithmetic of a count whose bytes do not fit in 64 bits. -/
theorem count_of_wrap {n size len r : Nat} (hn : n < 2 ^ 64) (hsize : 24 + size * 8 < 2 ^ 62)
    (hlen : wrap (24 + wrap (n * 8)) ≤ len) (hlt : len < 2 ^ 62) (hbig : len < 24 + n * 8)
    (hr : memsize 8 (growCapacity (wrap (size + n))) = r) (hlim : r < 2 ^ 62) :
    2 ^ 64 ≤ 24 + wrap (n * 8) ∨ wrap (size + n) ≠ size ∧ r < 24 := by
  have h24 : sizeofRawVector = 24 := rfl
  have hmax : sizeMax = 2 ^ 64 - 1 := rfl
  rw [memsize_eq] at hr
  simp only [wrap] at hlen hr ⊢
  rcases Nat.lt_or_ge (24 + n * 8 % 2 ^ 64) (2 ^ 64) with hsz | hsz
  · right
    have hN : (size + n) % 2 ^ 64 = size + n := Nat.mod_eq_of_lt (by omega)
    rw [hN] at hr ⊢
    refine ⟨by omega, ?_⟩
    rcases Nat.lt_or_ge (sizeMax / 4) (size + n) with hcap | hcap
    · rw [growCapacity_of_gt hcap] at hr
      omega
    · -- `2 ^ 64 ≤ n * 8 < 2 ^ 64 + len`, so the request is some `2 ^ 64 / 3` bytes
      rw [Nat.mod_eq_of_lt hsz] at hlen
      have hq : n * 8 % 2 ^ 64 = n * 8 - 2 ^ 64 := by omega
      rw [hq] at hlen
      rw [growCapacity_of_le hcap, if_neg (by omega)] at hr
      have hlow : 2 ^ 64 + 2 ^ 62 ≤ (size + n) * 4 / 3 * 8 + sizeofRawVector := by omega
      have hhigh : (size + n) * 4 / 3 * 8 + sizeofRawVector < 2 ^ 64 + 2 ^ 64 := by omega
      rw [Nat.mod_eq_sub_mod (by omega), Nat.mod_eq_of_lt (by omega)] at hr
      omega
  · exact .inl hsz

/-- A count whose bytes do not fit in 64 bits, in a buffer that passed the length check:
the block that was granted cannot hold the header, or the copy leaves the buffer. -/
theorem fault_of_wrap {mem : List UInt8} {n : Nat} {flag : Bool} {c : Vector T}
    (hw : Flat.width T = 8) (hc : c.Hosted) (hmem : mem.length < 2 ^ 62) (hn : n < 2 ^ 64)
    (hlen : wrap (sizeofRawVector + wrap (n * Flat.width T)) ≤ mem.length)
    (hbig : mem.length < sizeofRawVector + n * Flat.width T)
    (hg : c.grants (memsize (Flat.width T) (growCapacity (wrap (c.size + n)))) = true) :
    c.appendElts O mem n flag = .fault := by
  obtain ⟨a, ha, hlim, -⟩ := hc.alloc
  have hfit := hc.fits
  have hblock := hc.block
  have h24 : sizeofRawVector = 24 := rfl
  rw [grants, ha] at hg
  have hr := hlim _ _ hg
  rw [Fits, hw] at hfit
  rw [hw] at hlen hbig hr
  rw [appendElts]
  rcases count_of_wrap hn (by omega) hlen hmem hbig rfl hr with hsz | ⟨hne, hsmall⟩
  · have hout (t : Vector T) : copyElts O mem n flag c.size t = .fault :=
      copyElts_outside O (by rw [hw]; omega)
    by_cases hsame : wrap (c.size + n) = c.size
    · rw [hsame, resize_same, Outcome.bind_ok, hout]
    · rw [resize_zero_granted hsame ha hg]
      split
      · rw [Outcome.bind_ok, hout]
      · rfl
  · rw [resize_zero_granted hne ha hg, if_neg (by rw [hw]; omega)]
    rfl

/-- A count that fits: the elements are taken. -/
theorem append_taken (mem : List UInt8) (n : Nat) (flag : Bool) {c : Vector T}
    (hw : Flat.width T = 8) (hc : c.Hosted) (hmem : mem.length < 2 ^ 62)
    (hin : sizeofRawVector + n * Flat.width T ≤ mem.length)
    (hg : n ≠ 0 → c.grants (memsize (Flat.width T) (growCapacity (wrap (c.size + n)))) = true) :
    ∃ c', c.appendElts O mem n flag = .ok () c' ∧ (c'.v, c'.ordered) = c.joined O (piece mem n flag) ∧
      c'.alloc = c.alloc := by
  obtain ⟨a, ha, hlim, -⟩ := hc.alloc
  have hfit := hc.fits
  have hblock := hc.block
  have h24 : sizeofRawVector = 24 := rfl
  rw [Fits, hw] at hfit
  rw [hw] at hin
  have hwrap : wrap (c.size + n) = c.size + n := wrap_of_lt (by omega)
  rw [appendElts, hwrap]
  obtain ⟨t, ht, hsize, htake, htfit, hord, halloc⟩ : ∃ t, c.resize (c.size + n) 0 = .ok () t ∧
      t.size = c.v.length + n ∧ t.v.take c.v.length = c.v ∧ t.Fits t.size ∧
      t.ordered = c.ordered ∧ t.alloc = c.alloc := by
    by_cases h0 : n = 0
    · rw [h0, Nat.add_zero]
      exact ⟨c, resize_same c, rfl, List.take_of_length_le (Nat.le_refl _), hc.fits, rfl, rfl⟩
    · have hg' := hg h0
      rw [hwrap, grants, ha] at hg'
      have hcap : growCapacity (c.size + n) * 8 + 24 < 2 ^ 64 ∧
          c.size + n ≤ growCapacity (c.size + n) := by
        rw [growCapacity_of_le (by simp only [sizeMax]; omega)]
        split
        · omega
        · omega
      have hms : memsize (Flat.width T) (growCapacity (c.size + n)) =
          sizeofRawVector + growCapacity (c.size + n) * 8 := by
        rw [hw, memsize_of_lt (by omega)]
      refine ⟨c.grown a (c.size + n), ?_, size_grown _ _ _, take_redim (Nat.le_add_right _ _),
        ?_, rfl, rfl⟩
      · rw [resize_zero_granted (by omega) ha hg', if_pos (by omega)]
      · rw [Fits, size_grown, hw]
        show _ ≤ memsize _ _
        omega
  have hcopy := copyElts_of_fits O mem flag hsize htake htfit (by rw [hw]; omega)
    (by rw [hw]; exact hin)
  rw [ht, Outcome.bind_ok, show c.size = c.v.length from rfl, hcopy]
  exact ⟨_, rfl, by simp only [joined, piece, Flat.length_decode, hord], halloc⟩

/-- A request that is refused leaves all but the capacity. -/
theorem append_refused (mem : List UInt8) (flag : Bool) {n : Nat} {c : Vector T}
    (hc : c.Hosted) (h0 : n ≠ 0) (hn : n < 2 ^ 64)
    (hg : c.grants (memsize (Flat.width T) (growCapacity (wrap (c.size + n)))) = false) :
    ∃ e k, c.appendElts O mem n flag = .throw e { c with capacity := k } := by
  obtain ⟨a, ha, -, -⟩ := hc.alloc
  have hne : wrap (c.size + n) ≠ c.size := by
    rw [wrap]
    omega
  rw [grants, ha] at hg
  rw [appendElts, resize_refused (Nat.zero_le _) (.inr hne) ha (by rw [Nat.zero_mul]; exact hg)]
  exact ⟨_, _, rfl⟩

/-- The outcome of `append` from the verdict. -/
theorem append_of_verdict (mem : List UInt8) {c : Vector T} (hw : Flat.width T = 8)
    (hc : c.Hosted) (hmem : mem.length < 2 ^ 62) :
    match c.verdict mem with
    | .fault => c.append O mem mem.length = .fault
    | .refused => ∃ e k, c.append O mem mem.length = .throw e { c with capacity := k }
    | .taken n flag => ∃ c',
        c.append O mem mem.length = .ok (sizeofRawVector + n * Flat.width T) c' ∧
        (c'.v, c'.ordered) = c.joined O (piece mem n flag) ∧ c'.alloc = c.alloc := by
  obtain ⟨a, ha, -, -⟩ := hc.alloc
  unfold verdict append
  rcases Nat.lt_or_ge mem.length sizeofRawVector with hshort | hlong
  · rw [if_pos hshort, if_pos hshort]
    exact ⟨_, c.capacity, rfl⟩
  rw [if_neg (Nat.not_lt.mpr hlong), if_neg (Nat.not_lt.mpr hlong)]
  have h24 : sizeofRawVector = 24 := rfl
  obtain ⟨ty, hty⟩ := readWord_of_le mem 0 (by omega)
  obtain ⟨n, hn⟩ := readWord_of_le mem 8 (by omega)
  obtain ⟨o, ho⟩ := readWord_of_le mem 16 (by omega)
  simp only [hty, hn, ho]
  by_cases hmissing : mem.length < wrap (sizeofRawVector + wrap (n * Flat.width T))
  · rw [if_pos hmissing, if_pos hmissing]
    exact ⟨_, c.capacity, rfl⟩
  rw [if_neg hmissing, if_neg hmissing]
  by_cases htype : Raw.typenumber T ≠ ty
  · rw [if_pos htype, if_pos htype]
    exact ⟨_, c.capacity, rfl⟩
  rw [if_neg htype, if_neg htype]
  split
  · next hif =>
      split at hif
      · cases hif
      · next hgr =>
          split at hif
          · next hbig =>
              have hg : c.grants
                  (memsize (Flat.width T) (growCapacity (wrap (c.size + n)))) = true := by
                by_contra hno
                exact hgr ⟨by rintro rfl; omega, by simpa using hno⟩
              rw [fault_of_wrap O hw hc hmem (readWord_lt hn) (by omega) hbig hg]
              rfl
          · cases hif
  · next hif =>
      split at hif
      · next hgr =>
          obtain ⟨e, k, hthrow⟩ := append_refused O mem (decide (o % 2 = 1)) hc hgr.1
            (readWord_lt hn) hgr.2
          rw [hthrow]
          exact ⟨e, k, rfl⟩
      · split at hif
        · cases hif
        · cases hif
  · next m flag hif =>
      split at hif
      · cases hif
      · next hgr =>
          split at hif
          · cases hif
          · next hin =>
              cases hif
              obtain ⟨c', hc', hafter, halloc⟩ := append_taken O mem n (decide (o % 2 = 1))
                hw hc hmem (by omega) (by
                  intro h0
                  by_contra hno
                  exact hgr ⟨h0, by simpa using hno⟩)
              refine ⟨c', ?_, hafter, halloc⟩
              rw [hw] at hin
              rw [hc', Outcome.bind_ok, hw, wrap_of_lt (show n * 8 < 2 ^ 64 by omega),
                wrap_of_lt (by omega)]

/-- The rows a vector held before it was extended are always put back; the flag stays. -/
theorem resize_back {c c' : Vector T} (hw : Flat.width T = 8) (hc : c.Hosted)
    (h : Extends c c') : ∃ c'', c'.resize c.size 0 = .ok () c'' ∧ c''.v = c.v ∧
      c''.ordered = c'.ordered := by
  obtain ⟨⟨l, hl⟩, halloc⟩ := h
  obtain ⟨a, ha, -, hg⟩ := hc.alloc
  have hfit := hc.fits
  have hblock := hc.block
  have h24 : sizeofRawVector = 24 := rfl
  rw [Fits, hw] at hfit
  cases l with
  | nil =>
      rw [List.append_nil] at hl
      refine ⟨c', ?_, hl, rfl⟩
      rw [show c.size = c'.size by rw [size, size, hl], resize_same]
  | cons x l =>
      have hsize : c'.size = c.size + (l.length + 1) := by
        rw [size, hl, List.length_append, List.length_cons, size]
      have hroom : sizeofRawVector + growCapacity c.size * 8 < 2 ^ 64 := by
        rw [growCapacity_of_le (by simp only [sizeMax]; omega)]
        split
        · omega
        · omega
      refine ⟨c'.grown a c.size, ?_, ?_, rfl⟩
      · rw [resize_zero_granted (by omega) (halloc.trans ha) hg, if_pos]
        rw [hw, memsize_of_lt hroom]
        omega
      · show redim a c.size c'.v = c.v
        rw [hl, redim_of_le (by rw [List.length_append, size]; omega), size, List.take_left]

end Vector

/-- What the columns of an array do with a buffer: they read outside, or one of them
refuses after those before it took their pieces, or all take theirs. -/
inductive Scan (T : Type) where
  | fault
  | refused (pieces : List (List T × Bool))
  | taken (pieces : List (List T × Bool)) (offset : Nat)

namespace Array

open Ztsdb.Arr.Vector

variable {T : Type} (O : T → T → Bool)

/-- The columns by their elements and flags. -/
def content (cs : List (Vector T)) : List (List T × Bool) := cs.map fun c => (c.v, c.ordered)

/-- The columns after the first of them took the pieces. -/
def joined : List (List T × Bool) → List (Vector T) → List (List T × Bool)
  | p :: ps, c :: cs => c.joined O p :: joined ps cs
  | _, cs => content cs

theorem extends_of_joined {p : List T × Bool} {c c' : Vector T}
    (h : (c'.v, c'.ordered) = c.joined O p) (ha : c'.alloc = c.alloc) :
    Extends c c' := ⟨⟨_, congrArg Prod.fst h⟩, ha⟩

theorem extends_refl (c : Vector T) : Extends c c := ⟨⟨[], (List.append_nil _).symm⟩, rfl⟩

/-- `a'` is `a` with the pieces `ps` behind its columns and `rows` added to its first
dimension. -/
structure Taken (heap : Allocator) (ps : List (List T × Bool)) (rows : Nat) (a a' : Array T) :
    Prop where
  cols : content a'.v = joined O ps a.v
  extended : List.Forall₂ Extends a.v a'.v
  dim : a'.dim.v = a.dim.v.modifyHead (· + UInt64.ofNat rows)
  names : ∃ nm nms nm', a.names = nm :: nms ∧ nm.addrows heap rows = .ok () nm' ∧
    a'.names = nm' :: nms

variable [Raw T]

/-- The columns from byte `offset` on. -/
def scanCols (mem : List UInt8) : Nat → List (Vector T) → Scan T
  | offset, [] => .taken [] offset
  | offset, c :: cs =>
    if mem.length < offset then .fault
    else match c.verdict (mem.drop offset) with
      | .fault => .fault
      | .refused => .refused []
      | .taken n flag =>
        match scanCols mem (offset + (sizeofRawVector + n * Flat.width T)) cs with
        | .fault => .fault
        | .refused ps => .refused (piece (mem.drop offset) n flag :: ps)
        | .taken ps next => .taken (piece (mem.drop offset) n flag :: ps) next

/-- What an array does with all of `mem`, up to the names and the first extent. -/
def scan (mem : List UInt8) (a : Array T) : Scan T :=
  match a.dim.v with
  | [] => .refused []
  | _ :: _ =>
    match viewSize mem with
    | none => .fault
    | some adim =>
      match checkdims a.dim.v adim (viewElt mem) 0 with
      | none => .fault
      | some false => .refused []
      | some true => scanCols mem (sizeofRawVector + 8 * adim) a.v

/-- The rows that the first extent of the buffer adds to the names and to the extent. -/
def scanRows (heap : Allocator) (mem : List UInt8) (a : Array T) : Outcome Exn Unit Nat :=
  match viewElt mem 0, a.names with
  | some rows, nm :: _ => ((nm.addrows heap rows).mapState fun _ => ()).bind fun _ _ => .ok rows ()
  | _, _ => .fault

/-- The outcome of the loop over the columns from the scan. -/
theorem appendCols_of_scan {mem : List UInt8} {cs : List (Vector T)} {offset : Nat}
    (hw : Flat.width T = 8) (hcs : ∀ c ∈ cs, c.Hosted) (hmem : mem.length < 2 ^ 62)
    (hoff : offset < 2 ^ 63) :
    match scanCols mem offset cs with
    | .fault => appendCols O mem mem.length offset cs = .fault
    | .refused ps => ∃ e cs', appendCols O mem mem.length offset cs = .throw e cs' ∧
        content cs' = joined O ps cs ∧ List.Forall₂ Extends cs cs'
    | .taken ps offset' => ∃ cs',
        appendCols O mem mem.length offset cs = .ok offset' cs' ∧
        content cs' = joined O ps cs ∧ List.Forall₂ Extends cs cs' := by
  induction cs generalizing offset with
  | nil => exact ⟨[], rfl, rfl, .nil⟩
  | cons c cs ih =>
      have h24 : sizeofRawVector = 24 := rfl
      have hc := hcs c List.mem_cons_self
      have hrest := fun d hd => hcs d (List.mem_cons_of_mem c hd)
      rw [scanCols, appendCols]
      by_cases hout : mem.length < offset
      · rw [if_pos hout, List.drop_eq_nil_of_le hout.le,
          append_outside O (by rw [wsub, wrap]; omega)]
      rw [if_neg hout]
      have hlen : wsub mem.length offset = (mem.drop offset).length := by
        rw [wsub_of_le (by omega) (by omega), List.length_drop]
      have hverdict := append_of_verdict O (mem.drop offset) hw hc
        (by rw [List.length_drop]; omega)
      rw [hlen]
      cases hv : c.verdict (mem.drop offset) with
      | fault =>
          simp only [hv] at hverdict ⊢
          rw [hverdict]
      | refused =>
          simp only [hv] at hverdict ⊢
          obtain ⟨e, k, hthrow⟩ := hverdict
          rw [hthrow]
          refine ⟨e, _, rfl, rfl, ?_⟩
          exact .cons ⟨⟨[], (List.append_nil _).symm⟩, rfl⟩
            (List.forall₂_same.2 fun d _ => extends_refl d)
      | taken n flag =>
          simp only [hv] at hverdict ⊢
          obtain ⟨c', hok, hafter, halloc⟩ := hverdict
          have hle := le_of_verdict_taken hv
          rw [List.length_drop] at hle
          rw [hok]
          simp only
          rw [wrap_of_lt (by omega)]
          have hnext := ih hrest
            (show offset + (sizeofRawVector + n * Flat.width T) < 2 ^ 63 by omega)
          have hext := extends_of_joined O hafter halloc
          cases hs : scanCols mem (offset + (sizeofRawVector + n * Flat.width T)) cs with
          | fault =>
              simp only [hs] at hnext ⊢
              rw [hnext, Outcome.mapState_fault]
          | refused ps =>
              simp only [hs] at hnext ⊢
              obtain ⟨e, cs', hthrow, hcont, hall⟩ := hnext
              rw [hthrow, Outcome.mapState_throw]
              exact ⟨e, c' :: cs', rfl, by rw [content, List.map_cons, hafter, joined, ← hcont]; rfl,
                .cons hext hall⟩
          | taken ps offset' =>
              simp only [hs] at hnext ⊢
              obtain ⟨cs', hok', hcont, hall⟩ := hnext
              rw [hok', Outcome.mapState_ok]
              exact ⟨c' :: cs', rfl, by rw [content, List.map_cons, hafter, joined, ← hcont]; rfl,
                .cons hext hall⟩

/-- The rollback of the columns: the elements are put back, the flags are not. -/
theorem resizeCols_back {n : Nat} {cs cs' : List (Vector T)} (hw : Flat.width T = 8)
    (hcs : ∀ c ∈ cs, c.Hosted ∧ c.size = n) (h : List.Forall₂ Extends cs cs') :
    ∃ cs'', resizeCols n 0 cs' = .ok () cs'' ∧ cs''.map (·.v) = cs.map (·.v) ∧
      cs''.map (·.ordered) = cs'.map (·.ordered) := by
  induction h with
  | nil => exact ⟨[], rfl, rfl, rfl⟩
  | @cons c c' cs cs' hext hall ih =>
      obtain ⟨hc, hsize⟩ := hcs c List.mem_cons_self
      obtain ⟨c'', hok, hv, hord⟩ := resize_back hw hc hext
      obtain ⟨cs'', hoks, hvs, hords⟩ := ih fun d hd => hcs d (List.mem_cons_of_mem c hd)
      rw [hsize] at hok
      refine ⟨c'' :: cs'', ?_, ?_, ?_⟩
      · rw [resizeCols, hok]
        simp only [hoks, Outcome.mapState_ok]
      · rw [List.map_cons, List.map_cons, hv, hvs]
      · rw [List.map_cons, List.map_cons, hord, hords]

/-- Extents that passed were all read. -/
theorem read_of_checkdims {v : List idx_type} {un i : Nat} {u : Nat → Option Nat}
    (hv : v ≠ []) (h : checkdims v un u i = some true) {j : Nat} (hj : j < un)
    (hi : j ≠ i) : ∃ w, u j = some w := by
  have hvl := List.length_pos_of_ne_nil hv
  simp only [checkdims, if_neg (show ¬ (v.length = 0 ∨ un = 0) by omega)] at h
  split at h
  · next hsame =>
      split at h
      · rcases Nat.lt_or_ge j (min v.length un) with hlt | hge
        · have := checkSame_true hsame hlt (List.getElem?_eq_getElem (l := v) (by omega))
            (by omega)
          rw [Nat.zero_add] at this
          exact ⟨_, this⟩
        · have := checkOnes_true h (m := j - min v.length un) (by omega) (by omega)
          rw [Nat.add_sub_cancel' hge] at this
          exact ⟨_, this⟩
      · next hno => exact absurd h (hno ·)
  · next hno => exact absurd h (hno ·)

/-- The columns start where the header of the extents says, with no overflow. -/
theorem offset_of_checkdims {v : List idx_type} {adim : Nat} {mem : List UInt8}
    (hv : v ≠ []) (h : checkdims v adim (viewElt mem) 0 = some true)
    (hmem : mem.length < 2 ^ 62) : sizeofRawVector + 8 * adim < 2 ^ 63 := by
  have h24 : sizeofRawVector = 24 := rfl
  rcases Nat.lt_or_ge adim 2 with hlt | hge
  · omega
  · obtain ⟨w, hw⟩ := read_of_checkdims hv h (show adim - 1 < adim by omega) (by omega)
    rw [viewElt, readWord] at hw
    split at hw
    · omega
    · cases hw

/-- The outcome of `append` from the scan. -/
theorem append_of_scan (heap : Allocator) (mem : List UInt8) {a : Array T}
    (hw : Flat.width T = 8) (hcs : ∀ c ∈ a.v, c.Hosted ∧ c.size = a.nrows)
    (hn : a.dim.v ≠ [] → a.names ≠ []) (hmem : mem.length < 2 ^ 62) :
    match a.scan mem with
    | .fault => a.append O heap mem mem.length = .fault
    | .refused ps => ∃ e a', a.append O heap mem mem.length = .throw e a' ∧
        a'.dim = a.dim ∧ a'.v.map (·.v) = a.v.map (·.v) ∧
        a'.v.map (·.ordered) = (joined O ps a.v).map Prod.snd
    | .taken ps offset =>
      match a.scanRows heap mem with
      | .fault => a.append O heap mem mem.length = .fault
      | .throw e _ => ∃ a', a.append O heap mem mem.length = .throw e a' ∧
          a'.dim = a.dim ∧ content a'.v = joined O ps a.v
      | .ok rows _ => ∃ a', a.append O heap mem mem.length = .ok offset a' ∧
          Taken O heap ps rows a a' := by
  have h24 : sizeofRawVector = 24 := rfl
  have hsnd (cs : List (Vector T)) : (content cs).map Prod.snd = cs.map (·.ordered) := by
    rw [content, List.map_map]
    rfl
  have hnone (cs : List (Vector T)) : joined O [] cs = content cs := by
    cases cs <;> rfl
  unfold scan append
  cases hd : a.dim.v with
  | nil =>
      simp only
      exact ⟨_, a, rfl, rfl, rfl, by rw [hnone, hsnd]⟩
  | cons d ds =>
      have hdims : a.dim.v ≠ [] := by rw [hd]; exact List.cons_ne_nil d ds
      obtain ⟨nm, nms, hn⟩ := List.exists_cons_of_ne_nil (hn hdims)
      simp only
      cases hsize : viewSize mem with
      | none => rfl
      | some adim =>
          simp only
          rw [← hd]
          cases hcheck : checkdims a.dim.v adim (viewElt mem) 0 with
          | none => rfl
          | some b =>
              cases b with
              | false =>
                  simp only
                  exact ⟨_, a, rfl, rfl, rfl, by rw [hnone, hsnd]⟩
              | true =>
                  simp only
                  have hoff := offset_of_checkdims hdims hcheck hmem
                  rw [wrap_of_lt (show 8 * adim < 2 ^ 64 by omega),
                    wrap_of_lt (show sizeofRawVector + 8 * adim < 2 ^ 64 by omega)]
                  have hcols := appendCols_of_scan O hw (fun c hc => (hcs c hc).1) hmem hoff
                  cases hs : scanCols mem (sizeofRawVector + 8 * adim) a.v with
                  | fault =>
                      simp only [hs] at hcols ⊢
                      rw [hcols]
                      rfl
                  | refused ps =>
                      simp only [hs] at hcols ⊢
                      obtain ⟨e, cs', hthrow, hcont, hall⟩ := hcols
                      obtain ⟨cs'', hback, hv, hord⟩ := resizeCols_back (n := d.toNat) hw
                        (fun c hc => ⟨(hcs c hc).1, by rw [(hcs c hc).2, nrows, hd]⟩) hall
                      rw [hthrow, Outcome.tryCatch_throw, hback, Outcome.bind_ok,
                        Outcome.mapState_throw, Outcome.bind_throw]
                      refine ⟨e, _, rfl, rfl, hv, ?_⟩
                      rw [← hcont, hsnd]
                      exact hord
                  | taken ps offset =>
                      simp only [hs] at hcols ⊢
                      obtain ⟨cs', hok, hcont, hall⟩ := hcols
                      rw [hok, Outcome.tryCatch_ok, Outcome.mapState_ok, Outcome.bind_ok,
                        scanRows, hn]
                      cases hrows : viewElt mem 0 with
                      | none => rfl
                      | some rows =>
                          simp only
                          cases hadd : nm.addrows heap rows with
                          | fault =>
                              simp only [addRows, hadd, Outcome.mapState_fault,
                                Outcome.bind_fault]
                          | throw e nm' =>
                              simp only [addRows, hadd, Outcome.mapState_throw,
                                Outcome.bind_throw]
                              exact ⟨_, rfl, rfl, hcont⟩
                          | ok u nm' =>
                              simp only [addRows, hadd, Outcome.mapState_ok,
                                Outcome.bind_ok, hd, setv, Vector.size, List.length_cons]
                              exact ⟨_, rfl, hcont, hall, by rw [hd]; rfl, nm, nms, nm', hn, hadd, rfl⟩

end Array

end Ztsdb.Arr
