import Mathlib
import Ztsdb.Arr.Vector
import Ztsdb.Arr.Elements

/-!
# Sizes, capacities and blocks

What `push_back`, `resize` and `append` leave behind, whatever the allocator
answers and whatever count the header of a buffer carries. A call is `Safe` when
it throws and leaves the vector as it was, or returns a vector whose reservation
covers its elements and whose block covers its reservation.

Two of the three size computations check for overflow and `memsize` does not; and
the capacity is set before the request that may be refused. `Sound` is the
condition under which neither shows: a granted request did not wrap, and a refused
one was for the capacity the vector already had.
-/

namespace Ztsdb.Arr

open Ztsdb.Lib

/-- The vector is as it was: elements, flag and capacity. -/
def Vector.Intact {T : Type} (s s' : Vector T) : Prop :=
  s'.v = s.v ∧ s'.ordered = s.ordered ∧ s'.capacity = s.capacity

theorem Vector.Intact.refl {T : Type} (s : Vector T) : Intact s s := ⟨rfl, rfl, rfl⟩

namespace Vector

variable {T : Type} [Raw T] (O : T → T → Bool)

@[simp] theorem length_redim (a : Allocator) (n : Nat) (l : List T) :
    (redim a n l).length = n := by
  rw [redim, List.length_append, List.length_take, List.length_map, List.length_range']
  omega

@[simp] theorem size_grown (a : Allocator) (n : Nat) (s : Vector T) :
    (s.grown a n).size = n := length_redim a n s.v

theorem take_redim {a : Allocator} {n : Nat} {l : List T} (h : l.length ≤ n) :
    (redim a n l).take l.length = l := by
  rw [redim, List.take_of_length_le h, List.take_left]

theorem redim_of_le {a : Allocator} {n : Nat} {l : List T} (h : n ≤ l.length) :
    redim a n l = l.take n := by
  rw [redim, Nat.sub_eq_zero_of_le h, List.range'_zero, List.map_nil, List.append_nil]

@[simp] theorem length_overwrite (i : Nat) (bytes : List UInt8) (l : List T) :
    (overwrite i bytes l).length = l.length := by
  rw [overwrite, List.length_append, List.length_take, Flat.length_decode]
  omega

/-- A copy over all the places from `i` on leaves nothing of what they held. -/
theorem overwrite_of_length {i : Nat} {bytes : List UInt8} {l : List T}
    (h : bytes.length = (l.length - i) * Flat.width T) :
    overwrite i bytes l = l.take i ++ Flat.decode (l.length - i) bytes := by
  have hrest : (Flat.encode (l.drop i)).drop bytes.length = [] := by
    rw [List.drop_eq_nil_iff, Flat.length_encode, List.length_drop, h]
  rw [overwrite, hrest, List.append_nil]

/-- The copy of an append changes neither the number of elements nor the block. -/
theorem copyElts_cases (mem : List UInt8) (n : Nat) (ordered : Bool) (old_n : Nat)
    (s : Vector T) :
    copyElts O mem n ordered old_n s = .fault ∨
      ∃ s', copyElts O mem n ordered old_n s = .ok () s' ∧ s'.size = s.size ∧
        s'.capacity = s.capacity ∧ s'.block = s.block := by
  unfold copyElts
  simp only
  split
  · split
    · exact .inr ⟨_, rfl, length_overwrite _ _ _, rfl, rfl⟩
    · split
      · exact .inr ⟨_, rfl, length_overwrite _ _ _, rfl, rfl⟩
      · split
        · split
          · exact .inr ⟨_, rfl, length_overwrite _ _ _, rfl, rfl⟩
          · exact .inl rfl
        · exact .inl rfl
  · exact .inl rfl

/-- A copy that returned stayed inside the block and the buffer. -/
theorem copyElts_eq_ok {mem : List UInt8} {n : Nat} {ordered : Bool} {old_n : Nat}
    {s s' : Vector T} {u : Unit} (h : copyElts O mem n ordered old_n s = .ok u s') :
    sizeofRawVector + old_n * Flat.width T + wrap (n * Flat.width T) ≤ s.block ∧
      sizeofRawVector + wrap (n * Flat.width T) ≤ mem.length := by
  unfold copyElts at h
  simp only at h
  split at h
  · next hfit => exact hfit
  · cases h

/-- The copy of an append into a vector that was made long enough for it. -/
theorem copyElts_of_fits (mem : List UInt8) (ordered : Bool) {n : Nat} {l : List T}
    {s : Vector T} (hlen : s.size = l.length + n) (htake : s.v.take l.length = l)
    (hfit : s.Fits s.size) (hlt : n * Flat.width T < 2 ^ 64)
    (hmem : sizeofRawVector + n * Flat.width T ≤ mem.length) :
    copyElts O mem n ordered l.length s = .ok () { s with
      v := l ++ Flat.decode n (slice sizeofRawVector (n * Flat.width T) mem)
      ordered := if n = 0 then s.ordered else
        s.ordered && ordered &&
          seam O l (Flat.decode n (slice sizeofRawVector (n * Flat.width T) mem)) } := by
  have hsl : (slice sizeofRawVector (n * Flat.width T) mem).length = n * Flat.width T :=
    length_slice hmem
  have hn : s.v.length - l.length = n := by
    rw [size] at hlen
    omega
  have hover : overwrite l.length (slice sizeofRawVector (n * Flat.width T) mem) s.v =
      l ++ Flat.decode n (slice sizeofRawVector (n * Flat.width T) mem) := by
    rw [overwrite_of_length (by rw [hsl, hn]), htake, hn]
  have hroom : sizeofRawVector + l.length * Flat.width T + n * Flat.width T ≤ s.block := by
    rw [Fits, hlen, Nat.add_mul] at hfit
    omega
  simp only [copyElts, wrap_of_lt hlt]
  rw [if_pos ⟨hroom, hmem⟩, hover]
  cases n with
  | zero =>
      rw [if_pos rfl, if_pos rfl]
  | succ n =>
      rw [if_neg (Nat.succ_ne_zero n), if_neg (Nat.succ_ne_zero n)]
      cases hl : l with
      | nil =>
          rw [List.length_nil, if_pos rfl]
          simp [seam, Flat.decode]
      | cons b l' =>
          have hone : s.Fits (l.length + 1) := by
            have := Nat.mul_le_mul_right (Flat.width T) (Nat.le_add_left 1 n)
            rw [Fits, Nat.add_mul]
            omega
          rw [← hl, if_neg (by rw [hl]; exact Nat.succ_ne_zero _)]
          split
          · simp only [List.getElem?_append_right (Nat.le_refl _), Nat.sub_self, Flat.decode,
              List.getElem?_cons_zero, before_append_left, seam, List.head?_cons]
          · next hno => exact absurd hone hno


/-- The reservation covers the elements, and the block the reservation. -/
def Roomy (s : Vector T) : Prop := s.size ≤ s.capacity ∧ s.Fits s.capacity

theorem roomy_of_frame {s s' : Vector T} (hsize : s'.size = s.size)
    (hcap : s'.capacity = s.capacity) (hblock : s'.block = s.block) :
    s'.Roomy ↔ s.Roomy := by
  rw [Roomy, Roomy, Fits, Fits, hsize, hcap, hblock]

theorem Roomy.fits_size {s : Vector T} (h : s.Roomy) : s.Fits s.size := by
  have := Nat.mul_le_mul_right (Flat.width T) h.1
  have := h.2
  simp only [Fits] at this ⊢
  omega

/-- A request of `ask` bytes at byte `off` for a reservation of `n` elements: granted,
its size did not wrap; refused, the vector had that capacity already. -/
def Reserves (s : Vector T) (off ask n : Nat) : Prop :=
  match s.alloc with
  | none => True
  | some a =>
    if a.grant off ask then sizeofRawVector + growCapacity n * Flat.width T < 2 ^ 64
    else growCapacity n = s.capacity

/-- A reservation that fits in memory covers the elements it is for. -/
theorem le_growCapacity_of_fits {n : Nat}
    (h : sizeofRawVector + growCapacity n * Flat.width T < 2 ^ 64) : n < growCapacity n := by
  have hw := Flat.width_pos (T := T)
  have hle : growCapacity n * 1 ≤ growCapacity n * Flat.width T := Nat.mul_le_mul_left _ hw
  have h24 : sizeofRawVector = 24 := rfl
  exact lt_growCapacity (by simp only [sizeMax]; omega)

end Vector

/-- The calls that make a vector ask its allocator for room. `append` gets the bytes
`buf` it was told of, and whatever memory lies behind them. -/
inductive Call (T : Type) where
  | push_back (x : T)
  | resize (n frm : Nat)
  | append (buf rest : List UInt8)

namespace Call

open Ztsdb.Arr.Vector

variable {T : Type} [Raw T] (O : T → T → Bool)

def run : Call T → Vector T → Outcome Exn (Vector T) Unit
  | push_back x, s => s.push_back O x
  | resize n frm, s => s.resize n frm
  | append buf rest, s => (s.append O (buf ++ rest) buf.length).bind fun _ s => .ok () s

/-- The new elements of `append` are as many as the header counts, all from inside
the buffer. -/
def Took : Call T → Vector T → Vector T → Prop
  | push_back _, _, _ => True
  | resize _ _, _, _ => True
  | append buf _, s, s' => ∃ n, readWord buf 8 = some n ∧
      sizeofRawVector + n * Flat.width T ≤ buf.length ∧
      s'.v = s.v ++ Flat.decode n (slice sizeofRawVector (n * Flat.width T) buf)

/-- The call throws and leaves the vector as it was, or returns a vector with room
for its capacity. -/
def Safe (c : Call T) (s : Vector T) : Prop :=
  (c.run O s).Holds (fun _ s' => s'.Roomy ∧ c.Took s s') (fun _ s' => Intact s s')

/-- The append of a buffer whose header counts `n` elements, once its checks passed. -/
def SoundCount (buf : List UInt8) (n : Nat) (s : Vector T) : Prop :=
  if wrap (s.size + n) = s.size then s.Roomy
  else
    s.Reserves 0 (memsize (Flat.width T) (growCapacity (wrap (s.size + n)))) (wrap (s.size + n)) ∧
    ∀ a, s.alloc = some a →
      a.grant 0 (memsize (Flat.width T) (growCapacity (wrap (s.size + n)))) = true →
      s.size + n < 2 ^ 64 ∧ sizeofRawVector + n * Flat.width T ≤ buf.length

/-- When the call is safe, read off the vector and the arguments. -/
def Sound : Call T → Vector T → Prop
  | push_back _, s =>
    if wrap (s.size + 1) > s.capacity then
      s.Reserves 0 (getTotalSize (Flat.width T) (growCapacity s.size)) s.size
    else s.size + 1 ≤ s.capacity ∧ s.Fits s.capacity
  | resize n frm, s =>
    s.size < frm ∨
      if frm ≠ 0 ∨ n ≠ s.size then
        s.Reserves (frm * Flat.width T) (memsize (Flat.width T) (growCapacity n)) n
      else s.Roomy
  | append buf _, s =>
    ∀ n, sizeofRawVector ≤ buf.length → readWord buf 0 = some (Raw.typenumber T) →
      readWord buf 8 = some n →
      wrap (sizeofRawVector + wrap (n * Flat.width T)) ≤ buf.length → SoundCount buf n s

/-! ## One call at a time -/

theorem place_roomy_iff (x : T) (s : Vector T) (R : Exn → Vector T → Prop) :
    (place O x s).Holds (fun _ s' => s'.Roomy) R ↔
      s.size + 1 ≤ s.capacity ∧ s.Fits s.capacity := by
  rw [place]
  split
  · next hfit =>
      rw [Outcome.holds_ok]
      simp only [Roomy, Fits, size, List.length_append, List.length_singleton]
  · next hfit =>
      rw [Outcome.holds_fault, false_iff]
      rintro ⟨hle, hcap⟩
      have hmul := Nat.mul_le_mul_right (Flat.width T) hle
      simp only [Fits] at hfit hcap
      omega

/-- A granted request for the next reservation leaves room for one more element
exactly when its size did not wrap. -/
theorem roomy_growCapacity_iff (n : Nat) :
    n + 1 ≤ growCapacity n ∧
        sizeofRawVector + growCapacity n * Flat.width T
          ≤ getTotalSize (Flat.width T) (growCapacity n) ↔
      sizeofRawVector + growCapacity n * Flat.width T < 2 ^ 64 := by
  rw [le_getTotalSize_iff]
  constructor
  · exact fun h => h.2
  · intro h
    exact ⟨le_growCapacity_of_fits h, h⟩

theorem safe_push_back_iff (x : T) (s : Vector T) :
    (push_back x).Safe O s ↔ (push_back x).Sound s := by
  simp only [Safe, run, Took, and_true, Sound, Vector.push_back]
  split
  · next hgrow =>
      simp only [Reserves]
      cases ha : s.alloc with
      | none => simp [Intact.refl]
      | some a =>
          simp only
          split
          · next hg =>
              rw [place_roomy_iff]
              exact roomy_growCapacity_iff s.size
          · next hg => simp [Intact, eq_comm]
  · exact place_roomy_iff O x s _

theorem safe_resize_iff (n frm : Nat) (s : Vector T) :
    (resize n frm).Safe O s ↔ (resize n frm).Sound s := by
  simp only [Safe, run, Took, and_true, Sound]
  rcases Nat.lt_or_ge s.size frm with hlt | hfrm
  · rw [resize_beyond hlt, Outcome.holds_throw]
    exact iff_of_true (Intact.refl s) (.inl hlt)
  rw [or_iff_right (Nat.not_lt.mpr hfrm)]
  split
  · next hne =>
      simp only [Reserves]
      cases ha : s.alloc with
      | none =>
          rw [resize_null hfrm hne ha, Outcome.holds_throw]
          exact iff_of_true (Intact.refl s) trivial
      | some a =>
          simp only
          split
          · next hg =>
              rw [resize_granted hfrm hne ha hg]
              split
              · next hsz =>
                  simp only [Outcome.holds_ok, Roomy, Fits, size, length_redim]
                  rw [le_memsize_iff]
                  constructor
                  · exact fun h => h.2
                  · intro h
                    exact ⟨(le_growCapacity_of_fits h).le, h⟩
              · next hsz =>
                  rw [Outcome.holds_fault, false_iff, ← le_memsize_iff]
                  omega
          · next hg =>
              rw [resize_refused hfrm hne ha (Bool.not_eq_true _ ▸ hg), Outcome.holds_throw]
              simp only [Intact, true_and]
  · next hsame =>
      obtain ⟨rfl, rfl⟩ : frm = 0 ∧ n = s.size := by omega
      rw [resize_same, Outcome.holds_ok]

/-- What the append of a counted buffer must come to. -/
def TookCount (buf : List UInt8) (n : Nat) (s s' : Vector T) : Prop :=
  sizeofRawVector + n * Flat.width T ≤ buf.length ∧
    s'.v = s.v ++ Flat.decode n (slice sizeofRawVector (n * Flat.width T) buf)

/-- The end of an append, after the vector was made long enough or was found to be. -/
theorem copyElts_holds_iff (buf rest : List UInt8) (ordered : Bool) {n : Nat} {l : List T}
    {s : Vector T} {R : Exn → Vector T → Prop} (hlen : s.size = l.length + n)
    (htake : s.v.take l.length = l) (hlt : s.Roomy → n * Flat.width T < 2 ^ 64)
    (hbuf : sizeofRawVector + n * Flat.width T ≤ buf.length) :
    (copyElts O (buf ++ rest) n ordered l.length s).Holds (fun _ s' => s'.Roomy ∧
        s'.v = l ++ Flat.decode n (slice sizeofRawVector (n * Flat.width T) buf)) R ↔
      s.Roomy := by
  constructor
  · intro h
    rcases copyElts_cases O (buf ++ rest) n ordered l.length s with hf | ⟨s', hs', h1, h2, h3⟩
    · rw [hf] at h
      exact h.elim
    · rw [hs', Outcome.holds_ok] at h
      exact (roomy_of_frame h1 h2 h3).1 h.1
  · intro h
    have hmem : sizeofRawVector + n * Flat.width T ≤ (buf ++ rest).length := by
      rw [List.length_append]
      omega
    rw [copyElts_of_fits O (buf ++ rest) ordered hlen htake h.fits_size (hlt h) hmem, Outcome.holds_ok,
      slice_append rest hbuf]
    refine ⟨⟨?_, h.2⟩, rfl⟩
    rw [size, List.length_append, Flat.length_decode, ← hlen]
    exact h.1

/-- The end of an append whose request for `N` elements was granted. -/
theorem copyElts_grown_iff {buf rest : List UInt8} {n N : Nat} {ordered : Bool}
    {s : Vector T} {a : Allocator} {R : Exn → Vector T → Prop} (hN : wrap (s.size + n) = N) :
    (copyElts O (buf ++ rest) n ordered s.size (s.grown a N)).Holds
        (fun _ s' => s'.Roomy ∧ TookCount buf n s s') R ↔
      sizeofRawVector + growCapacity N * Flat.width T < 2 ^ 64 ∧
        s.size + n < 2 ^ 64 ∧ sizeofRawVector + n * Flat.width T ≤ buf.length := by
  have hNlt : N < 2 ^ 64 := hN ▸ wrap_lt _
  constructor
  · intro h
    rcases copyElts_cases O (buf ++ rest) n ordered s.size (s.grown a N) with
      hf | ⟨s', hs', hsize, hcap, hblock⟩
    · rw [hf] at h
      exact h.elim
    · rw [hs', Outcome.holds_ok] at h
      obtain ⟨hroomy, hin, htook⟩ := h
      have hlen : s'.size = s.size + n := by
        rw [size, htook, List.length_append, Flat.length_decode, size]
      refine ⟨?_, ?_, hin⟩
      · rw [← le_memsize_iff]
        have hfit := hroomy.2
        rw [hcap, Fits, hblock] at hfit
        exact hfit
      · rw [← hlen, hsize, size_grown]
        exact hNlt
  · rintro ⟨hfit, hlt, hin⟩
    rw [wrap_of_lt hlt] at hN
    have hle := le_growCapacity_of_fits hfit
    have hroomy : (s.grown a N).Roomy := by
      refine ⟨?_, (le_memsize_iff _ _).2 hfit⟩
      rw [size_grown]
      exact hle.le
    have hn : n * Flat.width T < 2 ^ 64 := by
      have := Nat.mul_le_mul_right (Flat.width T) (show n ≤ growCapacity N by omega)
      omega
    have htake : (s.grown a N).v.take s.v.length = s.v :=
      take_redim (by rw [← hN, size]; omega)
    have hiff := copyElts_holds_iff O buf rest ordered (R := R) (by rw [size_grown, ← hN, size]) htake
      (fun _ => hn) hin
    simp only [TookCount, hin, true_and]
    exact hiff.2 hroomy

theorem appendElts_holds_iff (buf rest : List UInt8) {n : Nat} (hn : n < 2 ^ 64)
    (hbuf : sizeofRawVector ≤ buf.length) (ordered : Bool) (s : Vector T) :
    (s.appendElts O (buf ++ rest) n ordered).Holds
        (fun _ s' => s'.Roomy ∧ TookCount buf n s s') (fun _ s' => Intact s s') ↔
      SoundCount buf n s := by
  unfold appendElts SoundCount
  generalize hN : wrap (s.size + n) = N
  have hNlt : N < 2 ^ 64 := hN ▸ wrap_lt _
  split
  · next hsame =>
      have h0 : n = 0 := by
        rw [wrap] at hN
        omega
      subst h0
      subst hsame
      rw [resize_same, Outcome.bind_ok]
      have hiff := copyElts_holds_iff O buf rest ordered (R := fun _ s' => Intact s s')
        (s := s) (n := 0) rfl (List.take_of_length_le (Nat.le_refl _)) (fun _ => by omega)
        (by omega)
      simp only [TookCount, Nat.zero_mul, Nat.add_zero, hbuf, true_and] at hiff ⊢
      exact hiff
  · next hne =>
      simp only [Reserves]
      cases ha : s.alloc with
      | none =>
          rw [resize_null (Nat.zero_le _) (.inr hne) ha, Outcome.bind_throw,
            Outcome.holds_throw]
          exact iff_of_true (Intact.refl s) ⟨trivial, fun a h => by cases h⟩
      | some a =>
          simp only [Option.some.injEq, forall_eq']
          by_cases hg : a.grant 0 (memsize (Flat.width T) (growCapacity N)) = true
          · rw [if_pos hg, resize_zero_granted hne ha hg]
            simp only [hg, true_imp_iff]
            split
            · rw [Outcome.bind_ok]
              exact copyElts_grown_iff O hN
            · next hsz =>
                rw [Outcome.bind_fault, Outcome.holds_fault, false_iff, ← le_memsize_iff]
                omega
          · rw [resize_refused (Nat.zero_le _) (.inr hne) ha
              (by rw [Nat.zero_mul]; exact Bool.not_eq_true _ ▸ hg), Outcome.bind_throw,
              Outcome.holds_throw]
            simp [Intact, hg]

theorem safe_append_iff (buf rest : List UInt8) (s : Vector T) :
    (append buf rest).Safe O s ↔ (append buf rest).Sound s := by
  have h24 : sizeofRawVector = 24 := rfl
  simp only [Safe, run, Sound, Vector.append, Outcome.holds_bind_return]
  rcases Nat.lt_or_ge buf.length sizeofRawVector with hshort | hbuf
  · rw [if_pos hshort, Outcome.holds_throw]
    exact iff_of_true (Intact.refl s) fun n hle => absurd hle (by omega)
  obtain ⟨t, ht⟩ := readWord_of_le buf 0 (by omega)
  obtain ⟨n, hn⟩ := readWord_of_le buf 8 (by omega)
  obtain ⟨o, ho⟩ := readWord_of_le buf 16 (by omega)
  rw [if_neg (Nat.not_lt.mpr hbuf)]
  simp only [readWord_append rest (show 0 + 8 ≤ buf.length by omega),
    readWord_append rest (show 8 + 8 ≤ buf.length by omega),
    readWord_append rest (show 16 + 8 ≤ buf.length by omega), ht, hn, ho, hbuf, true_imp_iff,
    Option.some.injEq]
  split
  · next hmissing =>
      rw [Outcome.holds_throw]
      refine iff_of_true (Intact.refl s) ?_
      rintro m - rfl hle
      omega
  · next hmissing =>
      split
      · next htype =>
          rw [Outcome.holds_throw]
          refine iff_of_true (Intact.refl s) ?_
          rintro m rfl
          exact absurd rfl htype
      · next htype =>
          rw [Outcome.holds_bind_return]
          have hiff := appendElts_holds_iff O buf rest (readWord_lt hn) hbuf
            (decide (o % 2 = 1)) s
          simp only [Took, hn, Option.some.injEq, exists_eq_left']
          refine hiff.trans ⟨?_, ?_⟩
          · rintro h m - rfl -
            exact h
          · intro h
            exact h n (not_not.mp htype).symm rfl (by omega)

/-- A call of `push_back`, `resize` or `append` throws with the vector untouched, or
leaves it with room for its capacity, if and only if no granted request wrapped and
no refused one was for a new capacity. -/
theorem safe_iff_sound (c : Call T) (s : Vector T) : c.Safe O s ↔ c.Sound s := by
  cases c with
  | push_back x => exact safe_push_back_iff O x s
  | resize n frm => exact safe_resize_iff O n frm s
  | append buf rest => exact safe_append_iff O buf rest s

/-- A header of 24 bytes that counts `2 ^ 62` elements of 8 bytes. -/
def hugeHeader : List UInt8 := leBytes 8 0 ++ (leBytes 8 (2 ^ 62) ++ leBytes 8 1)

/-- An empty vector, its allocator able to give a megabyte. -/
def emptyVector : Vector idx_type where
  v := []
  ordered := true
  capacity := 1024
  block := 8216
  alloc := some (memallocator (2 ^ 20))

/-- The count wraps twice: the buffer seems long enough, and 16 bytes are asked for. The
header of the vector does not fit in them. -/
theorem not_safe_hugeHeader :
    ¬ (append hugeHeader []).Safe lessIdx emptyVector := by
  have hrun : (append hugeHeader []).run lessIdx emptyVector
      = .fault := rfl
  rw [Safe, hrun]
  exact not_false

end Call

end Ztsdb.Arr
