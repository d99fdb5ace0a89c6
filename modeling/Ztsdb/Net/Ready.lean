import Mathlib
import Ztsdb.Lib.Run

/-!
# The ready list and its counter

The network thread puts every message it has received on a bounded list and then adds one
to an event counter; the message handler waits on the counter, takes all of it at once,
and takes that many messages off the list. The two steps of the network thread are apart,
and so are those of the handler: anything may come between them.

The handler looks for the context that a message is for. Where it finds none it leaves its
loop, and what it took off the counter is gone. In a run in which that only comes about
when the counter will still announce every message left, no message is left waiting.
-/

namespace Ztsdb.Net

open Ztsdb.Lib

abbrev conn_id_t := Nat

inductive MsgType where
  | REQ
  | RSP
  | APPEND
  | APPEND_VECTOR
  deriving DecidableEq

/-- A completed message: the connection it came from and the type it begins with. A number
that is no type's is `none`. -/
structure Buf where
  id : conn_id_t
  mt : Option MsgType
  deriving DecidableEq

/-- Where the network thread is: about to write to the counter, or elsewhere. -/
inductive NetAt where
  | elsewhere
  | write
  deriving DecidableEq

/-- Where the handler is: in its wait, in front of the loop's test with `val` messages to
go, with a message in hand, or out of `run`. -/
inductive HandlerAt where
  | waits
  | loop (val : Nat)
  | holds (val : Nat) (msg : Buf)
  | returned
  deriving DecidableEq

structure Ready where
  readybuflist : List Buf
  count : Nat
  net : NetAt
  handler : HandlerAt
  reqContexts : List conn_id_t
  rspContexts : List conn_id_t
  deriving DecidableEq

/-- What a context answers when it has read a response. -/
inductive Answer where
  | done
  | waiting
  | exception
  deriving DecidableEq

inductive Event where
  /-- The network thread has received the whole of a message. -/
  | add (msg : Buf)
  /-- The network thread writes to the counter. -/
  | signal
  /-- The network thread drops the oldest `k` messages: they are too old. -/
  | gc (k : Nat)
  /-- Connections come and go. -/
  | contexts (req rsp : List conn_id_t)
  /-- The handler is woken and reads the counter. -/
  | read
  /-- The handler tests the loop's condition. -/
  | get
  /-- The handler dispatches the message it holds. -/
  | dispatch (answer : Answer)

/-- The most an event counter takes. -/
def countMax : Nat := 2 ^ 64 - 2

/-- `addBufferToReadylist`: the list keeps to its size. -/
def addBufferToReadylist (max_size : Nat) (b : Buf) (l : List Buf) : List Buf :=
  (if l.length = max_size then l.drop 1 else l) ++ [b]

/-- Whether a context is found for a message: the loop is left where none is. -/
def Ready.finds (s : Ready) (msg : Buf) : Bool :=
  match msg.mt with
  | some .APPEND | some .APPEND_VECTOR | some .REQ => decide (msg.id ∈ s.reqContexts)
  | some .RSP => decide (msg.id ∈ s.rspContexts)
  | none => true

/-- Where the handler goes after a message it found the context of. -/
def dispatched (once : Bool) (val : Nat) (msg : Buf) (answer : Answer) : HandlerAt :=
  if msg.mt = some .RSP ∧ once = true ∧ answer ≠ .waiting then .returned else .loop val

def Ready.step (max_size : Nat) (once : Bool) (e : Event) (s : Ready) : Next Ready :=
  match e with
  | .add msg =>
    match s.net with
    | .elsewhere =>
      if max_size = 0 ∧ s.readybuflist = [] then .wild
      else .goes { s with
        readybuflist := addBufferToReadylist max_size msg s.readybuflist
        net := .write }
    | .write => .blocked
  | .signal =>
    match s.net with
    | .elsewhere => .blocked
    | .write =>
      -- a write that fails throws, which ends the program
      if s.count = countMax then .blocked
      else .goes { s with count := s.count + 1, net := .elsewhere }
  | .gc k =>
    match s.net with
    | .elsewhere => .goes { s with readybuflist := s.readybuflist.drop k }
    | .write => .blocked
  | .contexts req rsp => .goes { s with reqContexts := req, rspContexts := rsp }
  | .read =>
    match s.handler with
    | .waits =>
      if s.count = 0 then .blocked
      else .goes { s with count := 0, handler := .loop s.count }
    | _ => .blocked
  | .get =>
    match s.handler with
    | .loop 0 => .goes { s with handler := .waits }
    | .loop (val + 1) =>
      match s.readybuflist with
      | [] => .goes { s with handler := .waits }
      | msg :: l => .goes { s with readybuflist := l, handler := .holds val msg }
    | _ => .blocked
  | .dispatch answer =>
    match s.handler with
    | .holds val msg =>
      if s.finds msg then .goes { s with handler := dispatched once val msg answer }
      else .goes { s with handler := .waits }
    | _ => .blocked

/-- Before the first message. -/
def Ready.init : Ready := {
  readybuflist := []
  count := 0
  net := .elsewhere
  handler := .waits
  reqContexts := []
  rspContexts := [] }

/-- The messages that the network thread has on the list and not yet counted. -/
def Ready.pending (s : Ready) : Nat :=
  match s.net with
  | .elsewhere => 0
  | .write => 1

/-- With the handler in its wait and nothing on the counter, only a message whose count is
still to be written is on the list. -/
def Ready.NoneWaiting (s : Ready) : Prop :=
  s.handler = .waits → s.count = 0 → s.readybuflist.length ≤ s.pending

/-- The message that the handler holds. -/
def HandlerAt.msg? : HandlerAt → Option Buf
  | .holds _ msg => some msg
  | _ => none

/-- A message without a context leaves no messages behind but those still announced. The
list has room for one. -/
def Event.Covered (max_size : Nat) (e : Event) (s : Ready) : Prop :=
  match e with
  | .add _ => 0 < max_size
  | .dispatch _ =>
    ∀ msg ∈ s.handler.msg?, s.finds msg = false → s.readybuflist.length ≤ s.count + s.pending
  | _ => True

instance {max_size : Nat} {e : Event} {s : Ready} : Decidable (e.Covered max_size s) :=
  match e with
  | .add _ => inferInstanceAs (Decidable (0 < max_size))
  | .dispatch _ => inferInstanceAs (Decidable (∀ msg ∈ s.handler.msg?, s.finds msg = false →
      s.readybuflist.length ≤ s.count + s.pending))
  | .signal | .gc _ | .contexts _ _ | .read | .get => inferInstanceAs (Decidable True)

/-- What the handler has taken off the counter and not yet off the list. -/
def HandlerAt.credit : HandlerAt → Nat
  | .loop val => val
  | .holds val _ => val
  | _ => 0

/-- Every message on the list is announced: on the counter, by the network thread, or in
the handler's hands. -/
def Ready.Announced (s : Ready) : Prop :=
  s.handler ≠ .returned → s.readybuflist.length ≤ s.count + s.pending + s.handler.credit

theorem length_addBufferToReadylist_le {max_size : Nat} {b : Buf} {l : List Buf} :
    (addBufferToReadylist max_size b l).length ≤ l.length + 1 := by
  rw [addBufferToReadylist, List.length_append, List.length_singleton]
  split
  · rw [List.length_drop]
    omega
  · exact Nat.le_refl _

theorem dispatched_cases {once : Bool} {val : Nat} {msg : Buf} {answer : Answer} :
    dispatched once val msg answer = .returned ∨ dispatched once val msg answer = .loop val := by
  rw [dispatched]
  split
  · exact .inl rfl
  · exact .inr rfl

theorem Ready.announced_step {max_size : Nat} {once : Bool} {e : Event} {s s' : Ready}
    (hs : s.Announced) (hc : e.Covered max_size s) (h : s.step max_size once e = .goes s') :
    s'.Announced := by
  intro hret
  cases e with
  | add msg =>
      rw [Ready.step] at h
      split at h
      · next hnet =>
          split at h
          · cases h
          · cases h
            have hadd := @length_addBufferToReadylist_le max_size msg s.readybuflist
            have hbefore := hs hret
            rw [pending, hnet] at hbefore
            simp only [pending] at hbefore ⊢
            omega
      · cases h
  | signal =>
      rw [Ready.step] at h
      split at h
      · cases h
      · next hnet =>
          split at h
          · cases h
          · cases h
            have hbefore := hs hret
            rw [pending, hnet] at hbefore
            simp only [pending] at hbefore ⊢
            omega
  | gc k =>
      rw [Ready.step] at h
      split at h
      · cases h
        have hbefore := hs hret
        simp only [pending] at hbefore ⊢
        rw [List.length_drop]
        omega
      · cases h
  | contexts req rsp =>
      cases h
      exact hs hret
  | read =>
      rw [Ready.step] at h
      split at h
      · next hw =>
          split at h
          · cases h
          · cases h
            have hbefore := hs (by rw [hw]; exact HandlerAt.noConfusion)
            rw [hw] at hbefore
            simp only [pending, HandlerAt.credit] at hbefore ⊢
            omega
      · cases h
  | get =>
      rw [Ready.step] at h
      split at h
      · next hl =>
          cases h
          have hbefore := hs (by rw [hl]; exact HandlerAt.noConfusion)
          rwa [hl] at hbefore
      · next val hl =>
          have hbefore := hs (by rw [hl]; exact HandlerAt.noConfusion)
          rw [hl] at hbefore
          split at h
          · next hnil =>
              cases h
              simp only [hnil, List.length_nil]
              exact Nat.zero_le _
          · next msg l hcons =>
              cases h
              rw [hcons, List.length_cons] at hbefore
              simp only [pending, HandlerAt.credit] at hbefore ⊢
              omega
      · cases h
  | dispatch answer =>
      rw [Ready.step] at h
      split at h
      · next val msg hh =>
          have hbefore := hs (by rw [hh]; exact HandlerAt.noConfusion)
          rw [hh] at hbefore
          split at h
          · cases h
            rcases @dispatched_cases once val msg answer with heq | heq
            · exact absurd heq hret
            · rw [heq]
              exact hbefore
          · next hfind =>
              cases h
              exact hc msg (by rw [hh]; rfl) (by simpa using hfind)
      · cases h

theorem Ready.step_ne_wild {max_size : Nat} {once : Bool} {e : Event} {s : Ready}
    (hc : e.Covered max_size s) : s.step max_size once e ≠ .wild := by
  cases e with
  | add msg =>
      have hpos : 0 < max_size := hc
      rw [Ready.step]
      split
      · rw [if_neg (by omega)]
        exact nofun
      · exact nofun
  | signal =>
      rw [Ready.step]
      split
      · exact nofun
      · split
        · exact nofun
        · exact nofun
  | gc k =>
      rw [Ready.step]
      split <;> exact nofun
  | contexts req rsp => exact nofun
  | read =>
      rw [Ready.step]
      split
      · split
        · exact nofun
        · exact nofun
      · exact nofun
  | get =>
      rw [Ready.step]
      split
      · exact nofun
      · split
        · exact nofun
        · exact nofun
      · exact nofun
  | dispatch answer =>
      rw [Ready.step]
      split
      · split
        · exact nofun
        · exact nofun
      · exact nofun

theorem Ready.run_announced {max_size : Nat} {once : Bool} {s : Ready}
    (h : Run (Ready.step max_size once) (Event.Covered max_size) .init s) : s.Announced :=
  h.invariant (fun _ => Nat.zero_le _) (fun _ _ _ hs hc hgo => announced_step hs hc hgo)
    fun _ _ _ hc => step_ne_wild hc

/-- No message is left waiting in a run in which a message without a context leaves none
behind. -/
theorem Ready.run_noneWaiting (max_size : Nat) (once : Bool) {s : Ready}
    (h : Run (Ready.step max_size once) (Event.Covered max_size) .init s) : s.NoneWaiting := by
  intro hw hzero
  have hann := run_announced h (by rw [hw]; exact HandlerAt.noConfusion)
  rwa [hw, hzero, Nat.zero_add] at hann

/-- A message from a connection with a context is taken and the list is empty again. -/
theorem Ready.run_noneWaiting_one :
    Ready.NoneWaiting { Ready.init with reqContexts := [1] } :=
  run_noneWaiting 10 false (@Run.of_exec _ _ _ _ _ _ _ [.contexts [1] [], .add ⟨1, some .REQ⟩,
    .signal, .read, .get, .dispatch .done, .get] rfl)

/-- Two messages arrive, the first of them from a connection without a context. The
handler waits again with nothing on the counter, and the second is on the list. -/
theorem Ready.not_noneWaiting_oneLeft :
    ¬ ∀ s, Run (Ready.step 10 false) (fun _ _ => True) .init s → s.NoneWaiting := by
  intro h
  have hrun : exec (Ready.step 10 false) (fun _ _ => True) [.contexts [2] [],
      .add ⟨1, some .REQ⟩, .signal, .add ⟨2, some .REQ⟩, .signal, .read, .get, .dispatch .done]
      .init = some { Ready.init with readybuflist := [⟨2, some .REQ⟩], reqContexts := [2] } := rfl
  exact absurd (h _ (Run.of_exec hrun) rfl rfl) (by decide)

end Ztsdb.Net
