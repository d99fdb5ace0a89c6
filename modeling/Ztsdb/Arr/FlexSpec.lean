import Mathlib
import Ztsdb.Arr.Flex

/-!
# What survives a resize on a `flexallocator`

The bytes of a block are followed through a reallocation by their distance from
its start: whether the mapping moved, shrank in front or grew at its end, the
byte at distance `k` from the address asked for is at distance `k` from the
address that comes back. That holds as long as no trim happens behind an earlier
one: `reallocate` measures the second trim from the hidden offset and then
forgets that offset.
-/

namespace Ztsdb.Arr

open Ztsdb.Lib

/-- What a reallocation of the block at `p` leaves: the block at `c`, with room for
`need` bytes, in a mapping where the bytes below `lim` are where they were. -/
structure Relocated (p lim need : Nat) (m : Mem) (c : Nat) (f : Flexallocator) (m' : Mem) :
    Prop where
  start : c = f.t + f.offset
  n_lt : f.n < 2 ^ 64
  room : f.offset + need ≤ f.n
  mapped : m'.Mapped f.t f.n
  kept : ∀ k < need, p + k < lim → m' (c + k) = m (p + k)

/-- The memory before may be described from where the block was at first. -/
theorem Relocated.of_eq {p p' lim lim' need c : Nat} {m m₁ m' : Mem} {f : Flexallocator}
    (h : Relocated p' lim' need m₁ c f m') (hlim : p' + lim = p + lim')
    (heq : ∀ k, p + k < lim → m₁ (p' + k) = m (p + k)) : Relocated p lim need m c f m' where
  start := h.start
  n_lt := h.n_lt
  room := h.room
  mapped := h.mapped
  kept k hk hin := by rw [h.kept k hk (by omega), heq k hin]

namespace Flexallocator

/-- The exceptions of a mapping call that the system refuses. -/
def Refused (e : Exn) : Prop := e = .systemError "munmap" ∨ e = .systemError "mremap"

theorem reallocateEnd_holds {os : Os} {need n_p : Nat} {f : Flexallocator} {m : Mem}
    (hm : m.Mapped f.t f.n) (hn : f.n < 2 ^ 64) (hneed : need ≤ n_p)
    (hfit : inPages f.pagesz (n_p + f.offset) < 2 ^ 64) :
    (f.reallocateEnd os n_p m).Holds
      (fun c s => Relocated (f.t + f.offset) (f.t + f.n) need m c s.1 s.2) fun e _ => Refused e := by
  have hle := le_inPages f.pagesz_pos (n_p + f.offset)
  have hsum : wrap (n_p + f.offset) = n_p + f.offset := wrap_of_lt (by omega)
  rw [reallocateEnd, hsum, wrap_of_lt hfit]
  generalize inPages f.pagesz (n_p + f.offset) = n' at hfit hle ⊢
  by_cases hsame : f.n = n'
  · rw [if_neg (not_not.mpr hsame)]
    exact ⟨rfl, hn, by show f.offset + need ≤ f.n; omega, hm, fun _ _ _ => rfl⟩
  · rw [if_pos hsame]
    cases os.mremap f.t f.n n' with
    | none => exact Or.inr rfl
    | some t =>
        refine ⟨rfl, hfit, by show f.offset + need ≤ n'; omega, ?_, ?_⟩
        · intro k hk
          have hin : t ≤ t + k ∧ t + k < t + n' := ⟨by omega, Nat.add_lt_add_left hk t⟩
          show (m.remap f.t f.n n' t (t + k)).isSome
          rw [Mem.remap, if_pos hin, Nat.add_sub_cancel_left]
          split
          · next hold => exact hm k hold
          · rfl
        · intro k hk hlim
          have hin : t ≤ t + f.offset + k ∧ t + f.offset + k < t + n' := ⟨by omega, by omega⟩
          show m.remap f.t f.n n' t (t + f.offset + k) = m (f.t + f.offset + k)
          rw [Mem.remap, if_pos hin, if_pos (by omega)]
          congr 1
          omega

/-- A trim of `d` bytes in front of which nothing is hidden, or no trim. -/
theorem reallocate_holds {os : Os} {d need : Nat} {f : Flexallocator} {m : Mem}
    (hm : m.Mapped f.t f.n) (hn : f.n < 2 ^ 64) (hd : f.offset + d ≤ f.n)
    (hfront : d = 0 ∨ f.offset = 0)
    (hfit : inPages f.pagesz (need + if d = 0 then f.offset else 2 * (d % f.pagesz)) < 2 ^ 64) :
    (f.reallocate os (f.t + f.offset + d) need m).Holds
      (fun c s => Relocated (f.t + f.offset + d) (f.t + f.n) need m c s.1 s.2)
      fun e _ => Refused e := by
  rw [reallocate, if_neg (by omega)]
  by_cases hzero : d = 0
  · rw [if_pos hzero] at hfit
    rw [if_pos (by omega), hzero, Nat.add_zero]
    exact reallocateEnd_holds hm hn le_rfl hfit
  · rw [if_neg hzero] at hfit
    have hoff : f.offset = 0 := hfront.resolve_left hzero
    have hdm := Nat.div_add_mod' d f.pagesz
    have hle := le_inPages f.pagesz_pos (need + 2 * (d % f.pagesz))
    have hwrap : wrap (need + d % f.pagesz) = need + d % f.pagesz := wrap_of_lt (by omega)
    have hfit' : inPages f.pagesz (need + d % f.pagesz + d % f.pagesz) < 2 ^ 64 := by
      rwa [Nat.add_assoc, ← Nat.two_mul]
    have hneed : need ≤ need + d % f.pagesz := Nat.le_add_right _ _
    rw [if_neg (by omega), if_neg (by omega), ptrDiff_add (by omega)]
    simp only [hwrap, hoff, Nat.add_zero]
    by_cases hpages : d / f.pagesz = 0
    · have hrest : d % f.pagesz = d := by rw [hpages] at hdm; omega
      rw [if_neg (not_not.mpr hpages), hrest]
      rw [hrest] at hfit' hneed
      exact reallocateEnd_holds (f := { f with offset := d }) hm hn hneed hfit'
    · rw [if_pos hpages]
      generalize hfront' : d / f.pagesz * f.pagesz = front at hdm ⊢
      cases os.munmap f.t front with
      | false => exact Or.inl rfl
      | true =>
          -- the bytes behind the pages that go are still there
          have hleft : (m.unmap f.t front).Mapped (f.t + front) (f.n - front) := by
            intro k hk
            rw [Mem.unmap, if_neg (by omega), Nat.add_assoc]
            exact hm _ (by omega)
          have hend := @reallocateEnd_holds os _ _
            ⟨d % f.pagesz, f.t + front, f.n - front, f.pagesz, f.pagesz_pos⟩ _ hleft
            (by show f.n - front < _; omega) hneed hfit'
          rw [if_pos rfl, wsub_of_le hn (by omega)]
          refine Outcome.Holds.imp hend (fun c s h => h.of_eq (by simp only; omega) ?_) fun _ _ h => h
          intro k hk
          rw [Mem.unmap]
          simp only
          rw [if_neg (by omega)]
          congr 1
          omega

end Flexallocator

namespace FlexVector

variable {T : Type} [Raw T]

/-- A vector of `size` elements whose block lies in its mapping, behind what is hidden. -/
structure Sound (s : FlexVector T) (size : Nat) : Prop where
  start : s.c = s.alloc.t + s.alloc.offset
  n_lt : s.alloc.n < 2 ^ 64
  room : s.alloc.offset + (sizeofRawVector + size * Flat.width T) ≤ s.alloc.n
  mapped : s.mem.Mapped s.alloc.t s.alloc.n
  size_eq : s.size = some size

/-- An element is read from its bytes, wherever they are. -/
theorem elt_congr {s s' : FlexVector T} {i j : Nat}
    (h : ∀ k < Flat.width T, s'.mem (s'.c + sizeofRawVector + i * Flat.width T + k) =
      s.mem (s.c + sizeofRawVector + j * Flat.width T + k)) : s'.elt i = s.elt j := by
  rw [elt, elt, Mem.read_congr h]

theorem Sound.elt {s : FlexVector T} {size i : Nat} (h : s.Sound size) (hi : i < size) :
    ∃ x, s.elt i = some x := by
  have hin : (i + 1) * Flat.width T ≤ size * Flat.width T := Nat.mul_le_mul_right _ hi
  rw [Nat.add_mul, Nat.one_mul] at hin
  have hroom := h.room
  have hm := h.mapped.mono (b := s.alloc.offset + sizeofRawVector + i * Flat.width T)
    (n := Flat.width T) (by omega)
  rw [← Nat.add_assoc, ← Nat.add_assoc, ← h.start] at hm
  obtain ⟨bs, hbs, -⟩ := Mem.read_of_mapped hm
  exact ⟨_, by rw [FlexVector.elt, hbs]; rfl⟩

theorem Sound.header {s : FlexVector T} {size : Nat} (h : s.Sound size) :
    ∃ rv, s.mem.read s.c sizeofRawVector = some rv ∧ rv.length = sizeofRawVector := by
  have hroom := h.room
  have hm := h.mapped.mono (b := s.alloc.offset) (n := sizeofRawVector) (by omega)
  rw [← h.start] at hm
  exact Mem.read_of_mapped hm

/-- The header put in front of the kept elements leaves them alone. -/
theorem write_header {m : Mem} {c n need : Nat} {rv : List UInt8}
    (hrv : rv.length = sizeofRawVector) (hm : m.Mapped c need) (hneed : sizeofRawVector ≤ need) :
    ∃ m', ((m.write c rv).bind fun m => m.write (c + 8) (leBytes 8 n)) = some m' ∧
      m'.read (c + 8) 8 = some (leBytes 8 n) ∧ (∀ k, sizeofRawVector ≤ k → m' (c + k) = m (c + k)) ∧
      ∀ a len, m.Mapped a len → m'.Mapped a len := by
  have hlen : (leBytes 8 n).length = 8 := length_leBytes 8 n
  have hfirst : m.Mapped c rv.length := hm.take (by omega)
  have hsecond : (m.overlay c rv).Mapped (c + 8) (leBytes 8 n).length := by
    rw [hlen]
    exact (hm.overlay).mono (by rw [sizeofRawVector] at hneed; omega)
  refine ⟨(m.overlay c rv).overlay (c + 8) (leBytes 8 n), ?_, ?_, ?_, ?_⟩
  · rw [Mem.write_of_mapped hfirst, Option.bind_some, Mem.write_of_mapped hsecond]
  · have hread := @Mem.read_overlay (m.overlay c rv) (c + 8) (leBytes 8 n) [] []
    rwa [hlen, List.append_nil] at hread
  · intro k hk
    rw [sizeofRawVector] at hk hrv
    obtain ⟨j, rfl⟩ := Nat.exists_eq_add_of_le (show 8 ≤ k by omega)
    rw [← Nat.add_assoc, Mem.overlay_beyond (by omega), Nat.add_assoc,
      Mem.overlay_beyond (by omega)]
  · exact fun a len h => h.overlay.overlay

/-- The bytes that `resize` asks for hold the elements it is asked for. -/
theorem need_of_fit {w n o pagesz : Nat} (hw : 0 < w) (hpos : 0 < pagesz)
    (hfit : inPages pagesz (sizeofRawVector + growCapacity n * w + o) < 2 ^ 64) :
    memsize w (growCapacity n) = sizeofRawVector + growCapacity n * w ∧ n < growCapacity n ∧
      n < 2 ^ 64 := by
  have hle := le_inPages hpos (sizeofRawVector + growCapacity n * w + o)
  have hcap : growCapacity n ≤ growCapacity n * w := Nat.le_mul_of_pos_right _ hw
  have hheader : sizeofRawVector = 24 := rfl
  have hlt : growCapacity n < sizeMax := by rw [sizeMax]; omega
  have hn := lt_growCapacity hlt
  rw [sizeMax] at hlt
  exact ⟨memsize_of_lt (by omega), hn, by omega⟩

/-- A call of `resize` under its condition keeps the elements and the vector sound. -/
theorem resize_holds {s : FlexVector T} {size n frm : Nat} (os : Os) (h : s.Sound size)
    (hfrm : frm ≤ size) (hsafe : s.Safe n frm) :
    (s.resize os n frm).Holds
      (fun _ s' => s'.Sound n ∧ ∀ i < min n (size - frm), s'.elt i = s.elt (frm + i))
      fun e _ => Flexallocator.Refused e := by
  obtain ⟨rv, hrv, hlen⟩ := h.header
  rw [resize, h.size_eq, hrv]
  simp only
  rw [if_neg (by omega)]
  by_cases hsame : frm = 0 ∧ n = size
  · obtain ⟨rfl, rfl⟩ := hsame
    rw [if_neg (by simp)]
    exact ⟨h, fun i _ => by rw [Nat.zero_add]⟩
  · rw [if_pos (by omega)]
    have hw : 0 < Flat.width T := Flat.width_pos
    obtain ⟨hfront, hfit⟩ : (frm = 0 ∨ s.alloc.offset = 0) ∧ _ := hsafe.resolve_left fun hno =>
      hsame ⟨hno.1, (Option.some.inj (hno.2.symm.trans h.size_eq))⟩
    obtain ⟨hmem, hcap, hn⟩ := need_of_fit hw s.alloc.pagesz_pos hfit
    have hd : frm * Flat.width T = 0 ↔ frm = 0 := by
      rw [Nat.mul_eq_zero]
      omega
    have hfrmw : frm * Flat.width T ≤ size * Flat.width T := Nat.mul_le_mul_right _ hfrm
    have hroom := h.room
    have hre := @Flexallocator.reallocate_holds os (frm * Flat.width T)
      (sizeofRawVector + growCapacity n * Flat.width T) _ _ h.mapped h.n_lt (by omega)
      (by rwa [hd]) (by simpa only [hd] using hfit)
    rw [hmem, h.start]
    rw [h.start] at hrv
    cases hres : s.alloc.reallocate os (s.alloc.t + s.alloc.offset + frm * Flat.width T)
        (sizeofRawVector + growCapacity n * Flat.width T) s.mem with
    | ok c am =>
        rw [hres] at hre
        obtain ⟨f, m⟩ := am
        have hc : c = f.t + f.offset := hre.start
        have hblock : m.Mapped c (sizeofRawVector + growCapacity n * Flat.width T) := by
          rw [hc]
          exact hre.mapped.mono hre.room
        obtain ⟨m', hm', hread, hkept, hmapped⟩ :=
          write_header (n := n) hlen hblock (Nat.le_add_right _ _)
        simp only [hm']
        have hcapw : n * Flat.width T ≤ growCapacity n * Flat.width T :=
          Nat.mul_le_mul_right _ hcap.le
        have hroom' := hre.room
        refine ⟨⟨hc, hre.n_lt, ?_, hmapped _ _ hre.mapped, ?_⟩, ?_⟩
        · show f.offset + (sizeofRawVector + n * Flat.width T) ≤ f.n
          simp only at hroom'
          omega
        · show (m'.read (c + 8) 8).map leNat = some n
          rw [hread, Option.map_some, leNat_leBytes, Nat.mod_eq_of_lt (by norm_num; omega)]
        · intro i hi
          have hin : (i + 1) * Flat.width T ≤ n * Flat.width T :=
            Nat.mul_le_mul_right _ (by omega)
          have hold : (frm + i + 1) * Flat.width T ≤ size * Flat.width T :=
            Nat.mul_le_mul_right _ (by omega)
          simp only [Nat.add_mul, Nat.one_mul] at hin hold
          refine elt_congr fun k hk => ?_
          show m' (c + sizeofRawVector + i * Flat.width T + k) = _
          have hold' := hre.kept (sizeofRawVector + (i * Flat.width T + k)) (by omega) (by omega)
          simp only at hold'
          rw [Nat.add_assoc, Nat.add_assoc, hkept _ (by omega), hold', h.start]
          congr 1
          rw [Nat.add_mul]
          omega
    | throw e am =>
        rw [hres] at hre
        exact hre
    | fault =>
        rw [hres] at hre
        exact hre

/-- A vector as a constructor leaves it. -/
theorem construct_sound {os : Os} {pagesz : { p : Nat // 0 < p }} {capacity n : Nat}
    {elts : List T} {ordered : Bool} {s : FlexVector T} (hn : n < 2 ^ 64)
    (h : construct os pagesz capacity n elts ordered = .ok s ()) : s.Sound n := by
  rw [construct, Flexallocator.allocate] at h
  cases hmap : os.mmap (wrap (inPages pagesz.1 (getTotalSize (Flat.width T) capacity))) with
  | none =>
      simp only [hmap] at h
      cases h
  | some t =>
      simp only [hmap, Mem.write] at h
      split at h
      · cases h
      · next mem hmem =>
          obtain ⟨-, hmem⟩ := Option.ite_none_right_eq_some.mp hmem
          split at h
          · next hroom =>
              cases h
              cases hmem
              refine ⟨rfl, wrap_lt _, by rw [Nat.zero_add]; exact hroom, ?_, ?_⟩
              · refine Mem.Mapped.overlay fun k hk => ?_
                rw [Mem.map, if_pos ⟨Nat.le_add_right _ _, Nat.add_lt_add_left hk t⟩]
                rfl
              · have hread := @Mem.read_overlay
                  (Mem.map (fun _ => none) t
                    (wrap (inPages pagesz.1 (getTotalSize (Flat.width T) capacity)))) t
                  (leBytes 8 n) (leBytes 8 (Raw.typenumber T))
                  (leBytes 8 (if ordered then 1 else 0) ++ Flat.encode elts)
                rw [length_leBytes, length_leBytes] at hread
                rw [size, hread, Option.map_some, leNat_leBytes,
                  Nat.mod_eq_of_lt (by norm_num; omega)]
          · cases h

theorem reach_block {s : FlexVector T} (h : Reach Safe s) : ∃ size, s.Sound size := by
  induction h with
  | construct hn h => exact ⟨_, construct_sound hn h⟩
  | @resize os n frm s s' _ _ hsafe hok ih =>
      obtain ⟨size, hs⟩ := ih
      have hfrm : frm ≤ size := by
        by_contra hlt
        obtain ⟨rv, hrv, -⟩ := hs.header
        rw [resize, hs.size_eq, hrv] at hok
        simp only at hok
        rw [if_pos (by omega)] at hok
        cases hok
      have hkept := resize_holds os hs hfrm hsafe
      rw [hok] at hkept
      exact ⟨n, hkept.1⟩

/-- Every call keeps the elements it is asked to keep, in every run in which no call trims
behind an earlier trim that left part of a page, or asks for more than can be counted. -/
theorem reach_keeps {s : FlexVector T} {size n frm : Nat} (h : Reach Safe s)
    (hsize : s.size = some size) (hfrm : frm ≤ size) (hsafe : s.Safe n frm) (os : Os) :
    s.Keeps os n frm := by
  obtain ⟨size', hs⟩ := reach_block h
  obtain rfl : size' = size := Option.some.inj (hs.size_eq.symm.trans hsize)
  refine Outcome.Holds.imp (resize_holds os hs hfrm hsafe) ?_ fun _ _ h => h
  rintro - s' ⟨hs', helt⟩
  refine ⟨hs'.size_eq, fun size hsz i hi => ?_⟩
  obtain rfl : size = size' := Option.some.inj (hsz.symm.trans hsize)
  obtain ⟨x, hx⟩ := hs'.elt (show i < n by omega)
  exact ⟨x, by rw [← helt i hi, hx], hx⟩

/-- A system that grants every call and moves nothing. -/
def Os.still (t : Nat) : Os := ⟨fun _ => some t, fun _ _ => true, fun t _ _ => some t⟩

/-- A trim of a vector that was grown. -/
theorem reach_keeps_trim :
    ∃ s : FlexVector idx_type, s.size = some 2 ∧ s.Keeps (Os.still 65536) 1 1 := by
  have hmake := @Reach.construct idx_type _ Safe (Os.still 65536) ⟨4096, by decide⟩ 1024 1 [7] true _
    (by norm_num) rfl
  have hgrown := @Reach.resize _ _ _ (Os.still 65536) 2 0 _ _ hmake (by norm_num)
    (Or.inr ⟨Or.inl rfl, by decide⟩) rfl
  have hkeeps := @reach_keeps _ _ _ 2 1 1 hgrown (by decide) (by decide)
    (Or.inr ⟨Or.inr rfl, by decide⟩) (Os.still 65536)
  exact ⟨_, rfl, hkeeps⟩

/-- Of three elements the first is trimmed, then the second; the second is the one left. -/
theorem not_keeps : ¬ ∀ s : FlexVector idx_type, Reach (fun _ _ _ => True) s →
    ∀ size n frm os, s.size = some size → frm ≤ size → s.Keeps os n frm := by
  intro h
  have hmake := @Reach.construct idx_type _ (fun _ _ _ => True) (Os.still 65536) ⟨4096, by decide⟩
    1024 3 [1, 2, 3] true _ (by norm_num) rfl
  have htrim := @Reach.resize _ _ _ (Os.still 65536) 2 1 _ _ hmake (by norm_num) trivial rfl
  have hkeeps := h _ htrim 2 1 1 (Os.still 65536) (by decide) (by decide)
  obtain ⟨x, hold, hnew⟩ := hkeeps.2 2 (by decide) 0 (by decide)
  exact absurd (hold.trans hnew.symm) (by decide)

end FlexVector

end Ztsdb.Arr
