import Mathlib
import Ztsdb.Lib.Bytes
import Ztsdb.Lib.Run
import Ztsdb.Arr.Machine

/-!
# Reassembly of frames

A frame is the magic number, its whole length, and a payload. The bytes of a connection
come in any portions; the network thread is woken when some have come since it last was,
and reads until less than a header is left. A frame whose header it has read it does not
leave any more: it reads again and again, whatever `recv` returns, until the payload is
there.

Words are little endian, as on the machines the program is built for.
-/

namespace Ztsdb.Net

open Ztsdb.Lib Ztsdb.Arr

def MAGICNB : Nat := 0x9316481736403219

/-- A payload with its header. -/
def frame (payload : List UInt8) : List UInt8 :=
  leBytes 8 MAGICNB ++ (leBytes 8 (payload.length + 16) ++ payload)

/-- Frames one after the other. -/
def stream (payloads : List (List UInt8)) : List UInt8 := payloads.flatMap frame

/-- A payload that has a frame, and is not empty. -/
def WellFormed (payload : List UInt8) : Prop := payload ≠ [] ∧ payload.length + 16 < 2 ^ 64

instance : DecidablePred WellFormed := fun _ => inferInstanceAs (Decidable (_ ∧ _))

/-- The payloads of the frames that lie within the first `k` bytes. -/
def complete : List (List UInt8) → Nat → List (List UInt8)
  | [], _ => []
  | p :: ps, k =>
    if (frame p).length ≤ k then p :: complete ps (k - (frame p).length) else []

/-- A buffer under reassembly; its offset is the length of what is there. -/
structure Partial where
  len : Nat
  data : List UInt8
  deriving DecidableEq

/-- Where the network thread is with a connection. -/
inductive ReadAt where
  /-- It waits to be woken. -/
  | idle
  /-- At the top of its loop, having read nothing yet or something. -/
  | top (first_read : Bool)
  /-- It is to read on in its buffer. -/
  | fill (first_read : Bool)
  /-- It has disconnected. -/
  | closed
  deriving DecidableEq

structure Reading where
  /-- What the peer has still to send. -/
  todo : List UInt8
  /-- What has come and is not read. -/
  avail : List UInt8
  /-- Whether something has come since the thread was last woken. -/
  edge : Bool
  elt : Option Partial
  /-- The messages put on the ready list. -/
  ready : List (List UInt8)
  place : ReadAt
  deriving DecidableEq

inductive ReadEvent where
  | arrive (n : Nat)
  | wake
  /-- A step of the thread; `recv` returns `k` bytes of a payload. -/
  | next (k : Nat)

namespace Reading

/-- The top of the loop without a buffer: a header is read where one is there. -/
def readHeader (first_read : Bool) (s : Reading) : Reading :=
  if s.avail.length < 16 then
    -- signalled without data, the connection is taken to be down
    if first_read = true ∧ s.avail = [] then { s with place := .closed }
    else { s with place := .idle }
  else if leNat (s.avail.take 8) ≠ MAGICNB then
    { s with avail := s.avail.drop 8, place := .idle }
  else
    { s with
      avail := s.avail.drop 16
      elt := some { len := wsub (leNat (slice 8 8 s.avail)) 16, data := [] }
      place := .fill false }

/-- `recv` into the buffer. It returns 0 where 0 bytes are asked for, which is taken for
the end of the connection, and fails where nothing is there, which is tried again. -/
def readPayload (k : Nat) (first_read : Bool) (b : Partial) (s : Reading) : Next Reading :=
  if b.len = b.data.length then .goes { s with place := .closed }
  else if s.avail = [] then .goes { s with place := .top first_read }
  else if 0 < k ∧ k ≤ s.avail.length ∧ k ≤ b.len - b.data.length then
    let data := b.data ++ s.avail.take k
    if data.length = b.len then
      .goes { s with
        avail := s.avail.drop k
        elt := none
        ready := s.ready ++ [data]
        place := .top first_read }
    else
      .goes { s with
        avail := s.avail.drop k
        elt := some { b with data }
        place := .top first_read }
  else .blocked

def step (e : ReadEvent) (s : Reading) : Next Reading :=
  match e with
  | .arrive n =>
    if 0 < n ∧ n ≤ s.todo.length then
      .goes { s with todo := s.todo.drop n, avail := s.avail ++ s.todo.take n, edge := true }
    else .blocked
  | .wake =>
    if s.place = .idle ∧ s.edge = true ∧ s.avail ≠ [] then
      .goes { s with place := .top true, edge := false }
    else .blocked
  | .next k =>
    match s.place, s.elt with
    | .top first_read, none => .goes (s.readHeader first_read)
    | .top first_read, some _ => .goes { s with place := .fill first_read }
    | .fill first_read, some b => s.readPayload k first_read b
    | _, _ => .blocked

/-- A connection on which nothing has come yet. -/
def init (payloads : List (List UInt8)) : Reading := {
  todo := stream payloads
  avail := []
  edge := false
  elt := none
  ready := []
  place := .idle }

/-- How many bytes have come, and how many of them the thread has read. -/
def arrived (payloads : List (List UInt8)) (s : Reading) : Nat :=
  (stream payloads).length - s.todo.length

def read (payloads : List (List UInt8)) (s : Reading) : Nat :=
  s.arrived payloads - s.avail.length

/-- The messages are the payloads of the frames read to their end; where the thread will
not be woken again, of those that have come to their end. -/
structure Delivered (payloads : List (List UInt8)) (s : Reading) : Prop where
  ready : s.ready = complete payloads (s.read payloads)
  waiting : s.place = .idle → s.edge = false → s.ready = complete payloads (s.arrived payloads)

/-! ## Frames in a stream -/

theorem length_frame (p : List UInt8) : (frame p).length = p.length + 16 := by
  rw [frame, List.length_append, List.length_append, length_leBytes, length_leBytes]
  omega

theorem stream_cons (p : List UInt8) (ps : List (List UInt8)) :
    stream (p :: ps) = frame p ++ stream ps := rfl

theorem stream_append (ps qs : List (List UInt8)) : stream (ps ++ qs) = stream ps ++ stream qs :=
  List.flatMap_append

/-- Some frames and less than another one. -/
theorem complete_append {ps qs : List (List UInt8)} {k : Nat}
    (h : ∀ q qs', qs = q :: qs' → k < (frame q).length) :
    complete (ps ++ qs) ((stream ps).length + k) = ps := by
  induction ps with
  | nil =>
      cases qs with
      | nil => rfl
      | cons q qs' =>
          rw [List.nil_append, complete, if_neg]
          have := h q qs' rfl
          rw [stream, List.flatMap_nil, List.length_nil]
          omega
  | cons p ps ih =>
      rw [List.cons_append, complete, stream_cons, List.length_append, if_pos (by omega),
        show (frame p).length + (stream ps).length + k - (frame p).length =
          (stream ps).length + k by omega, ih]

/-! ## The invariant -/

/-- The bytes that are neither read nor in a finished frame are the frames `rest`, but for
what of the first of them is in the buffer. -/
structure Assembled (payloads : List (List UInt8)) (s : Reading) (rest : List (List UInt8)) :
    Prop where
  split : payloads = s.ready ++ rest
  noElt : s.elt = none → s.avail ++ s.todo = stream rest
  elt : ∀ b, s.elt = some b → ∃ p rest', rest = p :: rest' ∧ b.len = p.length ∧
    b.data.length < p.length ∧ b.data ++ (s.avail ++ s.todo) = p ++ stream rest'
  idle : s.place = .idle → s.elt = none ∧ (s.edge = false → s.avail.length < 16)
  woken : s.place = .top true → s.elt = none ∧ s.avail ≠ []
  filling : ∀ b, s.place = .fill b → b = false ∧ s.elt ≠ none
  opened : s.place ≠ .closed

variable {payloads rest : List (List UInt8)}

/-- What is read of a stream is some frames and a part of the next. -/
theorem Assembled.ready_eq {s : Reading} (h : s.Assembled payloads rest) :
    s.ready = complete payloads (s.read payloads) := by
  have hlen : (stream payloads).length = (stream s.ready).length + (stream rest).length := by
    rw [h.split, stream_append, List.length_append]
  have hsplit := h.split
  cases helt : s.elt with
  | none =>
      have hrest := congrArg List.length (h.noElt helt)
      rw [List.length_append] at hrest
      have hread : s.read payloads = (stream s.ready).length + 0 := by
        rw [read, arrived]
        omega
      rw [hread, hsplit, complete_append]
      intro q qs' hq
      rw [length_frame]
      omega
  | some b =>
      obtain ⟨p, rest', rfl, -, hlt, heq⟩ := h.elt b helt
      have hrest := congrArg List.length heq
      rw [List.length_append, List.length_append, List.length_append] at hrest
      rw [stream_cons, List.length_append, length_frame] at hlen
      have hread : s.read payloads = (stream s.ready).length + (16 + b.data.length) := by
        rw [read, arrived]
        omega
      rw [hread, hsplit, complete_append]
      intro q qs' hq
      cases hq
      rw [length_frame]
      omega

/-- With less than a header unread, nothing that has come is a whole frame. -/
theorem Assembled.waiting {s : Reading} (h : s.Assembled payloads rest) (hp : s.place = .idle)
    (he : s.edge = false) : s.ready = complete payloads (s.arrived payloads) := by
  obtain ⟨helt, hshort⟩ := h.idle hp
  have hshort := hshort he
  have hlen : (stream payloads).length = (stream s.ready).length + (stream rest).length := by
    rw [h.split, stream_append, List.length_append]
  have hrest := congrArg List.length (h.noElt helt)
  rw [List.length_append] at hrest
  have harr : s.arrived payloads = (stream s.ready).length + s.avail.length := by
    rw [arrived]
    omega
  have hsplit := h.split
  rw [harr, hsplit, complete_append]
  intro q qs' hq
  rw [length_frame]
  omega

/-! ## Steps -/

theorem Assembled.arrive {s : Reading} (h : s.Assembled payloads rest) (n : Nat) :
    Assembled payloads { s with
      todo := s.todo.drop n, avail := s.avail ++ s.todo.take n, edge := true } rest := by
  have hsame : s.avail ++ s.todo.take n ++ s.todo.drop n = s.avail ++ s.todo := by
    rw [List.append_assoc, List.take_append_drop]
  refine ⟨h.split, ?_, ?_, ?_, ?_, h.filling, h.opened⟩
  · intro helt
    exact hsame.trans (h.noElt helt)
  · intro b hb
    simp only [hsame]
    exact h.elt b hb
  · intro hp
    exact ⟨(h.idle hp).1, nofun⟩
  · intro hp
    obtain ⟨helt, hne⟩ := h.woken hp
    exact ⟨helt, List.append_ne_nil_of_left_ne_nil hne _⟩

/-- The header of the next frame, once 16 bytes have come. -/
theorem header_of_stream {avail todo : List UInt8} (hw : ∀ p ∈ rest, WellFormed p)
    (h : avail ++ todo = stream rest) (h16 : 16 ≤ avail.length) :
    ∃ p rest', rest = p :: rest' ∧ leNat (avail.take 8) = MAGICNB ∧
      wsub (leNat (slice 8 8 avail)) 16 = p.length ∧
      avail.drop 16 ++ todo = p ++ stream rest' := by
  cases rest with
  | nil =>
      have := congrArg List.length h
      rw [List.length_append, stream, List.flatMap_nil, List.length_nil] at this
      omega
  | cons p rest' =>
      obtain ⟨-, hlt⟩ := hw p List.mem_cons_self
      rw [stream_cons, frame, List.append_assoc, List.append_assoc] at h
      have hmagic : avail.take 8 = leBytes 8 MAGICNB := by
        rw [← @List.take_append_of_le_length _ avail todo 8 (by omega), h,
          List.take_append_of_le_length (by rw [length_leBytes]), List.take_of_length_le
            (by rw [length_leBytes])]
      have hlen : slice 8 8 avail = leBytes 8 (p.length + 16) := by
        rw [← slice_append todo (by omega), h]
        exact slice_append_right (leBytes 8 MAGICNB) _ _ (length_leBytes 8 _).symm
      have hdrop : avail.drop 16 ++ todo = p ++ stream rest' := by
        rw [← List.drop_append_of_le_length h16, h, ← List.append_assoc, List.drop_left'
          (by rw [List.length_append, length_leBytes, length_leBytes])]
      refine ⟨p, rest', rfl, ?_, ?_, hdrop⟩
      · exact (congrArg leNat hmagic).trans ((leNat_leBytes 8 MAGICNB).trans
          (Nat.mod_eq_of_lt (by norm_num [MAGICNB])))
      · rw [hlen, leNat_leBytes, Nat.mod_eq_of_lt (by omega), wsub_of_le (by omega) (by omega)]
        omega

theorem Assembled.readHeader {s : Reading} {first_read : Bool} (h : s.Assembled payloads rest)
    (hw : ∀ p ∈ payloads, WellFormed p) (hp : s.place = .top first_read) (helt : s.elt = none) :
    (s.readHeader first_read).Assembled payloads rest := by
  have hrest := h.noElt helt
  rw [Reading.readHeader]
  split
  · next hshort =>
      rw [if_neg]
      · exact ⟨h.split, h.noElt, h.elt, fun _ => ⟨helt, fun _ => hshort⟩, nofun, nofun, nofun⟩
      · intro hdown
        obtain ⟨rfl, hnil⟩ := hdown
        exact (h.woken hp).2 hnil
  · next h16 =>
      have hw' : ∀ p ∈ rest, WellFormed p := by
        intro p hmem
        exact hw p (by rw [h.split]; exact List.mem_append_right _ hmem)
      obtain ⟨p, rest', rfl, hmagic, hlen, hdrop⟩ := header_of_stream hw' hrest (by omega)
      rw [if_neg (by rw [not_not]; exact hmagic)]
      refine ⟨h.split, nofun, ?_, nofun, nofun, ?_, nofun⟩
      · intro b hb
        obtain rfl := Option.some.inj hb
        refine ⟨p, rest', rfl, hlen, ?_, hdrop⟩
        exact List.length_pos_of_ne_nil (hw' p List.mem_cons_self).1
      · intro b hb
        cases hb
        exact ⟨rfl, nofun⟩

theorem Assembled.readPayload {s s' : Reading} {k : Nat} {b : Partial}
    (h : s.Assembled payloads rest) (helt : s.elt = some b)
    (hgo : s.readPayload k false b = .goes s') : ∃ rest', s'.Assembled payloads rest' := by
  obtain ⟨p, rest', rfl, hblen, hlt, heq⟩ := h.elt b helt
  rw [Reading.readPayload, if_neg (by omega)] at hgo
  split at hgo
  · cases hgo
    exact ⟨_, h.split, h.noElt, h.elt, nofun, nofun, nofun, nofun⟩
  · split at hgo
    · next hk =>
        obtain ⟨-, hkavail, hklen⟩ := hk
        have hmoved : b.data ++ s.avail.take k ++ (s.avail.drop k ++ s.todo) =
            p ++ stream rest' := by
          rw [← heq, List.append_assoc, ← List.append_assoc (s.avail.take k),
            List.take_append_drop]
        have hdata : (b.data ++ s.avail.take k).length = b.data.length + k := by
          rw [List.length_append, List.length_take, Nat.min_eq_left hkavail]
        simp only at hgo
        split at hgo
        · next hfull =>
            cases hgo
            obtain ⟨hp', hrest'⟩ := List.append_inj hmoved (by omega)
            refine ⟨rest', ?_, fun _ => hrest', nofun, nofun, nofun, nofun, nofun⟩
            rw [h.split, hp', List.append_assoc]
            rfl
        · next hmore =>
            cases hgo
            refine ⟨p :: rest', h.split, nofun, ?_, nofun, nofun, nofun, nofun⟩
            intro b' hb'
            cases hb'
            refine ⟨p, rest', rfl, hblen, ?_, hmoved⟩
            simp only
            omega
    · cases hgo

theorem Assembled.step {s s' : Reading} {e : ReadEvent} (h : s.Assembled payloads rest)
    (hw : ∀ p ∈ payloads, WellFormed p) (hgo : step e s = .goes s') :
    ∃ rest', s'.Assembled payloads rest' := by
  cases e with
  | arrive n =>
      rw [Reading.step] at hgo
      split at hgo
      · cases hgo
        exact ⟨rest, h.arrive n⟩
      · cases hgo
  | wake =>
      rw [Reading.step] at hgo
      split at hgo
      · next hwake =>
          obtain ⟨hp, -, hne⟩ := hwake
          cases hgo
          exact ⟨rest, h.split, h.noElt, h.elt, nofun, fun _ => ⟨(h.idle hp).1, hne⟩, nofun, nofun⟩
      · cases hgo
  | next k =>
      rw [Reading.step] at hgo
      split at hgo
      · next hp helt =>
          cases hgo
          exact ⟨rest, h.readHeader hw hp helt⟩
      · next first_read b hp helt =>
          cases hgo
          cases first_read with
          | true =>
              have := (h.woken hp).1
              rw [helt] at this
              cases this
          | false =>
              refine ⟨rest, h.split, h.noElt, h.elt, nofun, nofun, ?_, nofun⟩
              intro b' hb'
              cases hb'
              exact ⟨rfl, by rw [helt]; exact nofun⟩
      · next first_read b hp helt =>
          obtain ⟨rfl, -⟩ := h.filling first_read hp
          exact h.readPayload helt hgo
      · cases hgo

theorem init_assembled (payloads : List (List UInt8)) :
    (init payloads).Assembled payloads payloads :=
  ⟨rfl, fun _ => rfl, nofun, fun _ => ⟨rfl, fun _ => Nat.succ_pos 15⟩, nofun, nofun, nofun⟩

theorem step_ne_wild {e : ReadEvent} {s : Reading} : step e s ≠ .wild := by
  intro h
  cases e with
  | arrive n =>
      rw [step] at h
      split at h <;> cases h
  | wake =>
      rw [step] at h
      split at h <;> cases h
  | next k =>
      rw [step] at h
      split at h
      · cases h
      · cases h
      · rw [Reading.readPayload] at h
        split at h
        · cases h
        · split at h
          · cases h
          · split at h
            · simp only at h
              split at h <;> cases h
            · cases h
      · cases h

end Reading

end Ztsdb.Net
