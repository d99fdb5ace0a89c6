import Mathlib
import Ztsdb.Net.Frames

/-!
# The read loop of one readiness event

When a socket is ready the network thread goes round a loop until it leaves it: at a new
message for which less than a header is there or whose magic number is wrong, or by an
exception where the buffer is too large to allocate. The condition of the loop tests a
variable that nothing in it changes, since the result of `recv` goes into another one of
the same name.

A turn with a buffer reads into it and always goes round again, also when `recv` reports
that there is nothing to read. So the loop ends only if the bytes that are there do not:
each turn that reads some has fewer of them left, and with none left inside a message every
turn is like the one before.
-/

namespace Ztsdb.Net

open Ztsdb.Lib Ztsdb.Arr

/-- What the loop works on. The descriptor of a connection that was dropped is closed, and
its buffer erased. -/
structure ReadLoop where
  first_read : Bool
  connected : Bool
  /-- The bytes on the socket. -/
  avail : List UInt8
  elt : Option Partial
  ready : List (List UInt8)
  deriving DecidableEq

namespace ReadLoop

def disconnect (s : ReadLoop) : ReadLoop := { s with connected := false, elt := none }

/-- How a turn of the loop ends. -/
inductive Turn where
  | leaves (s : ReadLoop)
  | again (s : ReadLoop)
  deriving DecidableEq

/-- How many bytes `recv` returns when it is asked for `n` and there are some: any number
that is possible, `k` where it is. -/
def portion (k n : Nat) (avail : List UInt8) : Nat := max 1 (min k (min n avail.length))

/-- The turn from the reassembly on. With nothing to read `recv` fails; asked for no bytes
it returns 0, which is taken for the end of the connection. -/
def reassemble (k : Nat) (b : Partial) (s : ReadLoop) : ReadLoop :=
  let n := b.len - b.data.length
  if s.avail = [] then { s with elt := some b }
  else if n = 0 then s.disconnect
  else
    let nread := portion k n s.avail
    let msg := { b with data := b.data ++ s.avail.take nread }
    if msg.data.length = msg.len then
      { s with avail := s.avail.drop nread, elt := none, ready := s.ready ++ [msg.data] }
    else { s with avail := s.avail.drop nread, elt := some msg }

/-- A turn of the loop; `grant` says which buffers can be allocated. -/
def turn (grant : Nat → Bool) (k : Nat) (s : ReadLoop) : Turn :=
  -- an unknown descriptor has no buffer, and `ioctl` fails on it
  if s.connected = false then .leaves s
  else match s.elt with
  | some b => .again (reassemble k b s)
  | none =>
    if s.avail.length < 16 then
      if s.first_read = true ∧ s.avail = [] then .leaves s.disconnect else .leaves s
    else if leNat (s.avail.take 8) ≠ MAGICNB then
      .leaves { s with first_read := false, avail := s.avail.drop 8 }
    else
      let s' := { s with first_read := false, avail := s.avail.drop 16 }
      let len := wsub (leNat (slice 8 8 s.avail)) 16
      if grant len then .again (reassemble k { len, data := [] } s') else .leaves s'

/-- The loop has one more turn. -/
def GoesTo (grant : Nat → Bool) (s' s : ReadLoop) : Prop := ∃ k, turn grant k s = .again s'

/-- However `recv` portions the bytes, the loop is left. -/
def Terminates (grant : Nat → Bool) (s : ReadLoop) : Prop := Acc (GoesTo grant) s

/-- Bytes that do not end in a body: after whole messages come less than a header, a wrong
magic number, a length that cannot be allocated, or an empty message and more. -/
def Whole (grant : Nat → Bool) (avail : List UInt8) : Prop :=
  if avail.length < 16 then True
  else if leNat (avail.take 8) ≠ MAGICNB then True
  else
    let len := wsub (leNat (slice 8 8 avail)) 16
    if grant len = false then True
    else if len = 0 then avail.drop 16 ≠ []
    else len ≤ (avail.drop 16).length ∧ Whole grant ((avail.drop 16).drop len)
  termination_by avail.length
  decreasing_by
    rw [List.length_drop, List.length_drop]
    omega

/-- `n` bytes that a buffer lacks are there, and the rest does not end in a body. -/
def Completes (grant : Nat → Bool) (n : Nat) (avail : List UInt8) : Prop :=
  if n = 0 then avail ≠ [] else n ≤ avail.length ∧ Whole grant (avail.drop n)

/-- The bytes that are there do not end in a body, counting from the reassembly state. -/
def Settles (grant : Nat → Bool) (s : ReadLoop) : Prop :=
  s.connected = true →
    match s.elt with
    | none => Whole grant s.avail
    | some b => Completes grant (b.len - b.data.length) s.avail

variable {grant : Nat → Bool}

/-! ## Turns -/

theorem portion_pos (k n : Nat) (avail : List UInt8) : 0 < portion k n avail := le_max_left 1 _

theorem portion_le {k n : Nat} {avail : List UInt8} (hn : n ≠ 0) (ha : avail ≠ []) :
    portion k n avail ≤ n ∧ portion k n avail ≤ avail.length := by
  have hpos := List.length_pos_of_ne_nil ha
  rw [portion]
  omega

theorem turn_of_closed {k : Nat} {s : ReadLoop} (hc : s.connected = false) :
    turn grant k s = .leaves s := by
  rw [turn, if_pos hc]

/-- A new message for which less than a header is there, or another magic number. -/
theorem turn_of_no_header {k : Nat} {s : ReadLoop} (helt : s.elt = none)
    (h : s.avail.length < 16 ∨ leNat (s.avail.take 8) ≠ MAGICNB) :
    ∃ s', turn grant k s = .leaves s' := by
  rw [turn, helt]
  split
  · exact ⟨_, rfl⟩
  · simp only
    split
    · split
      · exact ⟨_, rfl⟩
      · exact ⟨_, rfl⟩
    · next hlong =>
        rw [if_pos (h.resolve_left hlong)]
        exact ⟨_, rfl⟩

/-- A header is read, and the turn goes on as one with an empty buffer does. -/
theorem turn_of_header {k : Nat} {s : ReadLoop} (hc : s.connected = true) (helt : s.elt = none)
    (hlong : ¬s.avail.length < 16) (hmagic : leNat (s.avail.take 8) = MAGICNB) :
    turn grant k s =
      let s' := { s with first_read := false, avail := s.avail.drop 16 }
      let b : Partial := { len := wsub (leNat (slice 8 8 s.avail)) 16, data := [] }
      if grant b.len then turn grant k { s' with elt := some b } else .leaves s' := by
  rw [turn, if_neg (by simp [hc]), helt]
  simp only [if_neg hlong, hmagic, ne_eq, not_true, if_false]
  congr 1
  rw [turn]
  simp only [hc, Bool.true_eq_false, if_false]
  rfl

theorem turn_of_elt {k : Nat} {b : Partial} {s : ReadLoop} (hc : s.connected = true)
    (h : s.elt = some b) : turn grant k s = .again (reassemble k b s) := by
  rw [turn, if_neg (by simp [hc]), h]

theorem not_terminates_of_self {s : ReadLoop} (h : GoesTo grant s s) : ¬Terminates grant s := by
  intro hacc
  induction hacc with
  | intro s _ ih => exact ih s h h

/-- States with the same turns. -/
theorem terminates_congr {s s' : ReadLoop} (h : ∀ k, turn grant k s = turn grant k s') :
    Terminates grant s ↔ Terminates grant s' := by
  have hgo (t : ReadLoop) : GoesTo grant t s ↔ GoesTo grant t s' :=
    exists_congr fun k => by rw [h k]
  refine ⟨fun hacc => ⟨s', fun t ht => ?_⟩, fun hacc => ⟨s, fun t ht => ?_⟩⟩
  · exact hacc.inv ((hgo t).2 ht)
  · exact hacc.inv ((hgo t).1 ht)

theorem terminates_of_leaves {s : ReadLoop} (h : ∀ k, ∃ s', turn grant k s = .leaves s') :
    Terminates grant s := by
  refine ⟨s, fun t ht => ?_⟩
  obtain ⟨k, hk⟩ := ht
  obtain ⟨s', hs'⟩ := h k
  rw [hk] at hs'
  cases hs'

/-- A reassembly with bytes to read reads some of them. -/
theorem exists_reassemble (k : Nat) {b : Partial} {s : ReadLoop} (ha : s.avail ≠ [])
    (hn : b.len - b.data.length ≠ 0) :
    ∃ nread, 0 < nread ∧ nread ≤ b.len - b.data.length ∧ nread ≤ s.avail.length ∧
      reassemble k b s =
        if b.len - b.data.length = nread then
          { s with
            avail := s.avail.drop nread
            elt := none
            ready := s.ready ++ [b.data ++ s.avail.take nread] }
        else
          { s with
            avail := s.avail.drop nread
            elt := some { b with data := b.data ++ s.avail.take nread } } := by
  obtain ⟨hle, hle'⟩ := @portion_le k _ _ hn ha
  refine ⟨portion k (b.len - b.data.length) s.avail, portion_pos _ _ _, hle, hle', ?_⟩
  have hlen : (b.data ++ s.avail.take (portion k (b.len - b.data.length) s.avail)).length = b.len ↔
      b.len - b.data.length = portion k (b.len - b.data.length) s.avail := by
    rw [List.length_append, List.length_take, Nat.min_eq_left hle']
    omega
  rw [reassemble, if_neg ha, if_neg hn]
  simp only [hlen]

/-- What a buffer lacks after a reassembly is what it lacked less the bytes read. -/
theorem settles_reassemble {k : Nat} {b : Partial} {s : ReadLoop} (hc : s.connected = true)
    (ha : s.avail ≠ []) (hn : b.len - b.data.length ≠ 0) :
    (reassemble k b s).avail.length < s.avail.length ∧
      (Settles grant (reassemble k b s) ↔ Completes grant (b.len - b.data.length) s.avail) := by
  obtain ⟨nread, hpos, hle, hle', heq⟩ := exists_reassemble k ha hn
  rw [heq, Completes, if_neg hn]
  split
  · next hfull =>
      refine ⟨?_, ?_⟩
      · rw [List.length_drop]
        omega
      · rw [hfull, and_iff_right hle']
        exact forall_prop_of_true hc
  · next hmore =>
      refine ⟨?_, ?_⟩
      · show (s.avail.drop nread).length < _
        rw [List.length_drop]
        omega
      · have hleft : b.len - (b.data ++ s.avail.take nread).length =
            b.len - b.data.length - nread := by
          rw [List.length_append, List.length_take, Nat.min_eq_left hle']
          omega
        have hrest : (s.avail.drop nread).drop (b.len - b.data.length - nread) =
            s.avail.drop (b.len - b.data.length) := by
          rw [List.drop_drop]
          congr 1
          omega
        refine (forall_prop_of_true hc).trans ?_
        simp only [hleft, Completes, hrest, List.length_drop]
        rw [if_neg (by omega)]
        refine and_congr_left' ?_
        omega

/-- The loop with a buffer, once it is known for fewer bytes. -/
theorem terminates_buffer {b : Partial} {s : ReadLoop} (hc : s.connected = true)
    (h : s.elt = some b)
    (ih : ∀ s' : ReadLoop, s'.avail.length < s.avail.length →
      (Terminates grant s' ↔ Settles grant s')) :
    Terminates grant s ↔ Completes grant (b.len - b.data.length) s.avail := by
  by_cases ha : s.avail = []
  · -- nothing is left to read, and every turn is like this one
    have hself : GoesTo grant s s := by
      refine ⟨0, ?_⟩
      rw [turn_of_elt hc h, reassemble, if_pos ha, ← h]
    refine iff_of_false (not_terminates_of_self hself) ?_
    rw [Completes, ha]
    split
    · exact fun hne => hne rfl
    · next hn =>
        rintro ⟨hle, -⟩
        exact hn (Nat.le_zero.1 hle)
  by_cases hn : b.len - b.data.length = 0
  · have hclosed (k : Nat) : turn grant k s = .again s.disconnect := by
      rw [turn_of_elt hc h, reassemble, if_neg ha, if_pos hn]
    have hleft : Terminates grant s.disconnect :=
      terminates_of_leaves fun k => ⟨s.disconnect, turn_of_closed rfl⟩
    refine iff_of_true ⟨s, ?_⟩ ?_
    · rintro t ⟨k, hk⟩
      rw [hclosed] at hk
      cases hk
      exact hleft
    · rw [Completes, if_pos hn]
      exact ha
  have hstep (k : Nat) : Terminates grant (reassemble k b s) ↔
      Completes grant (b.len - b.data.length) s.avail := by
    obtain ⟨hlt, hiff⟩ := @settles_reassemble grant k _ _ hc ha hn
    exact (ih _ hlt).trans hiff
  constructor
  · intro hacc
    exact (hstep 0).1 (hacc.inv ⟨0, turn_of_elt hc h⟩)
  · intro hcomp
    refine ⟨s, ?_⟩
    rintro t ⟨k, hk⟩
    rw [turn_of_elt hc h] at hk
    cases hk
    exact (hstep k).2 hcomp

/-- The loop at a header. -/
theorem terminates_header {s : ReadLoop} (hc : s.connected = true) (helt : s.elt = none)
    (hlong : ¬s.avail.length < 16) (hmagic : leNat (s.avail.take 8) = MAGICNB)
    (ih : ∀ s' : ReadLoop, s'.avail.length < s.avail.length →
      (Terminates grant s' ↔ Settles grant s')) :
    Terminates grant s ↔
      let len := wsub (leNat (slice 8 8 s.avail)) 16
      if grant len = false then True
      else if len = 0 then s.avail.drop 16 ≠ []
      else len ≤ (s.avail.drop 16).length ∧ Whole grant ((s.avail.drop 16).drop len) := by
  have hturn := fun k => @turn_of_header grant k s hc helt hlong hmagic
  simp only at hturn ⊢
  generalize wsub (leNat (slice 8 8 s.avail)) 16 = len at *
  cases hg : grant len with
  | false =>
      rw [hg] at hturn
      exact iff_of_true (terminates_of_leaves fun k => ⟨_, hturn k⟩) trivial
  | true =>
      rw [hg] at hturn
      have hdrop : (s.avail.drop 16).length < s.avail.length := by
        rw [List.length_drop]
        omega
      have hbuf := @terminates_buffer grant { len, data := [] }
        { s with first_read := false, avail := s.avail.drop 16, elt := some { len, data := [] } } hc rfl
        fun s' hlt => ih s' (hlt.trans hdrop)
      rw [List.length_nil, Nat.sub_zero, Completes] at hbuf
      rw [if_neg (by simp)]
      exact (terminates_congr hturn).trans hbuf

/-- The loop of one event is left, however the bytes are portioned, just when the bytes
that are there do not end inside the body of a message. -/
theorem terminates_iff (grant : Nat → Bool) (s : ReadLoop) :
    Terminates grant s ↔ Settles grant s := by
  induction hlen : s.avail.length using Nat.strongRecOn generalizing s with
  | ind n ih =>
  subst hlen
  have ih' (s' : ReadLoop) (h : s'.avail.length < s.avail.length) :
      Terminates grant s' ↔ Settles grant s' := ih _ h s' rfl
  cases hc : s.connected with
  | false =>
      refine iff_of_true (terminates_of_leaves fun k => ⟨s, turn_of_closed hc⟩) fun h => ?_
      rw [hc] at h
      cases h
  | true =>
      rw [Settles, forall_prop_of_true hc]
      cases helt : s.elt with
      | some b => exact terminates_buffer hc helt ih'
      | none =>
          show _ ↔ Whole grant s.avail
          rw [Whole]
          split
          · next hshort =>
              exact iff_of_true (terminates_of_leaves fun k => turn_of_no_header helt (.inl hshort))
                trivial
          · next hlong =>
              split
              · next hmagic =>
                  exact iff_of_true
                    (terminates_of_leaves fun k => turn_of_no_header helt (.inr hmagic)) trivial
              · next hmagic =>
                  rw [not_not] at hmagic
                  exact terminates_header hc helt hlong hmagic ih'

/-- The header of a message has come, and its payload has not. -/
theorem not_terminates_header :
    ¬Terminates (fun _ => true) ⟨true, true, leBytes 8 MAGICNB ++ leBytes 8 20, none, []⟩ := by
  have hgo : GoesTo (fun _ => true) ⟨false, true, [], some ⟨4, []⟩, []⟩
      ⟨true, true, leBytes 8 MAGICNB ++ leBytes 8 20, none, []⟩ := ⟨0, by decide +kernel⟩
  have hself : GoesTo (fun _ => true) ⟨false, true, [], some ⟨4, []⟩, []⟩
      ⟨false, true, [], some ⟨4, []⟩, []⟩ := ⟨0, rfl⟩
  intro hacc
  exact not_terminates_of_self hself (hacc.inv hgo)

end ReadLoop

end Ztsdb.Net
