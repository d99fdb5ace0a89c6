import Mathlib
import Ztsdb.Lib.Run
import Ztsdb.Net.Ready

/-!
# Connections

Two threads make and close connections: the network thread accepts, and disconnects where
a peer has gone; the message handler connects, and disconnects where a response could not
be sent. Each of these is a series of steps, every step atomic under its own lock or in
the system, and the steps of the two threads come in any order.

The system gives out any descriptor that is not open. The mappings between descriptors and
ids are two maps that are changed together; `insert` into a map keeps an entry that is
there. What comes and goes is told to the handler through a bounded list of signals, from
which it keeps a context for every incoming connection.
-/

namespace Ztsdb.Net

open Ztsdb.Lib

inductive Direction where
  | INCOMING
  | OUTGOING
  deriving DecidableEq

structure Connection where
  fd : Nat
  dir : Direction
  deriving DecidableEq

inductive Status where
  | UP
  | DOWN
  deriving DecidableEq

/-- The steps of `disconnect(id)` after the first: the descriptor is to be closed, the
mapping to be deleted, the signal to be given, the counter to be written. -/
inductive Disconnect where
  | look (id : conn_id_t)
  | close (id : conn_id_t) (fd : Nat)
  | delete (id : conn_id_t)
  | add_sig (id : conn_id_t)
  | write
  deriving DecidableEq

/-- Where the network thread is. -/
inductive NetThread where
  | idle
  /-- In `acceptConnection`: the mapping is to be made. -/
  | accepted (fd : Nat)
  /-- The signal is to be given. -/
  | created (id : conn_id_t)
  /-- The counter is to be written. -/
  | signalled (id : conn_id_t)
  | disconnects (d : Disconnect)
  deriving DecidableEq

/-- Where the message handler is. -/
inductive HandlerThread where
  | idle
  /-- It took a signal off the list. -/
  | handles (id : conn_id_t) (st : Status)
  /-- In `connect`: the socket is to be connected. -/
  | socket (fd : Nat)
  /-- The mapping is to be made. -/
  | connected (fd : Nat)
  /-- The descriptor is to be watched. -/
  | created (id : conn_id_t)
  /-- It cannot be: the mapping is to be deleted. -/
  | failed (id : conn_id_t)
  | disconnects (d : Disconnect)
  deriving DecidableEq

structure Connections where
  /-- The descriptors that the system has open. -/
  opened : Finset Nat
  fdToId : Nat → Option conn_id_t
  connections : conn_id_t → Option Connection
  /-- The last id given out. -/
  last : conn_id_t
  sigs : List (conn_id_t × Status)
  reqContexts : Finset conn_id_t
  net : NetThread
  handler : HandlerThread

/-- What the network thread does next, where it has a choice: an answer of the system. -/
inductive NetStep where
  /-- `accept` returns `fd`. -/
  | accept (fd : Nat)
  /-- The peer of `fd` has gone. -/
  | hangup (fd : Nat)
  /-- The next step; a write to the counter may be refused. -/
  | next (refused : Bool)
  deriving DecidableEq

/-- What the handler does next. -/
inductive HandlerStep where
  /-- A signal is taken off the list. -/
  | get_sig
  /-- `connect`: `socket` returns `fd`. -/
  | connect (fd : Nat)
  /-- A response to the peer of `id` cannot be sent. -/
  | sendFail (id : conn_id_t)
  /-- The next step; the system may refuse it. -/
  | next (refused : Bool)
  deriving DecidableEq

namespace Connections

variable (max_size : Nat)

/-- `createConnection(fd, addr, dir)`. The ids come from a counter. -/
def createConnection (fd : Nat) (dir : Direction) (s : Connections) : Connections :=
  let id := s.last + 1
  { s with
    last := id
    fdToId := if s.fdToId fd = none then Function.update s.fdToId fd (some id) else s.fdToId
    connections := if s.connections id = none then
      Function.update s.connections id (some ⟨fd, dir⟩) else s.connections }

/-- `deleteConnection(id)`; an id that is not there is looked for and then used. -/
def deleteConnection (id : conn_id_t) (s : Connections) : Option Connections :=
  match s.connections id with
  | none => none
  | some c => some { s with
      fdToId := Function.update s.fdToId c.fd none
      connections := Function.update s.connections id none }

/-- `add_sig(id, st)`: a full list loses its oldest signal. -/
def addSig (id : conn_id_t) (st : Status) (s : Connections) : Connections :=
  { s with sigs := (if s.sigs.length = max_size then s.sigs.drop 1 else s.sigs) ++ [(id, st)] }

/-- A step of `disconnect`: the state, and where it is then; `none` at its end. -/
def disconnect (d : Disconnect) (s : Connections) : Next (Connections × Option Disconnect) :=
  match d with
  | .look id =>
    if id = 0 then .goes (s, none)
    else
      match s.connections id with
      | none => .goes (s, none)
      | some c => .goes (s, some (.close id c.fd))
  | .close id fd => .goes ({ s with opened := s.opened.erase fd }, some (.delete id))
  | .delete id =>
    match s.deleteConnection id with
    | none => .wild
    | some s => .goes (s, some (.add_sig id))
  | .add_sig id =>
    if max_size = 0 ∧ s.sigs = [] then .wild else .goes (s.addSig max_size id .DOWN, some .write)
  | .write => .goes (s, none)

def stepNet (e : NetStep) (s : Connections) : Next Connections :=
  match e, s.net with
  | .accept fd, .idle =>
    if fd ∈ s.opened then .blocked
    else .goes { s with opened := insert fd s.opened, net := .accepted fd }
  | .hangup fd, .idle => .goes { s with net := .disconnects (.look ((s.fdToId fd).getD 0)) }
  | .next _, .accepted fd =>
    .goes { s.createConnection fd .INCOMING with net := .created (s.last + 1) }
  | .next _, .created id =>
    if max_size = 0 ∧ s.sigs = [] then .wild
    else .goes { s.addSig max_size id .UP with net := .signalled id }
  | .next refused, .signalled id =>
    .goes { s with net := if refused then .disconnects (.look id) else .idle }
  | .next _, .disconnects d =>
    match disconnect max_size d s with
    | .goes (s, none) => .goes { s with net := .idle }
    | .goes (s, some d) => .goes { s with net := .disconnects d }
    | .blocked => .blocked
    | .wild => .wild
  | _, _ => .blocked

def stepHandler (e : HandlerStep) (s : Connections) : Next Connections :=
  match e, s.handler with
  | .get_sig, .idle =>
    match s.sigs with
    | [] => .blocked
    | (id, st) :: l => .goes { s with sigs := l, handler := .handles id st }
  | .connect fd, .idle =>
    if fd ∈ s.opened then .blocked
    else .goes { s with opened := insert fd s.opened, handler := .socket fd }
  | .sendFail id, .idle =>
    -- only the context of a connection answers its requests
    if id ∈ s.reqContexts then .goes { s with handler := .disconnects (.look id) } else .blocked
  | .next _, .handles id .UP =>
    .goes { s with reqContexts := insert id s.reqContexts, handler := .idle }
  | .next _, .handles id .DOWN =>
    .goes { s with reqContexts := s.reqContexts.erase id, handler := .idle }
  | .next refused, .socket fd =>
    if refused then .goes { s with opened := s.opened.erase fd, handler := .idle }
    else .goes { s with handler := .connected fd }
  | .next _, .connected fd =>
    .goes { s.createConnection fd .OUTGOING with handler := .created (s.last + 1) }
  | .next refused, .created id =>
    .goes { s with handler := if refused then .failed id else .idle }
  | .next _, .failed id =>
    match s.deleteConnection id with
    | none => .wild
    | some s => .goes { s with handler := .idle }
  | .next _, .disconnects d =>
    match disconnect max_size d s with
    | .goes (s, none) => .goes { s with handler := .idle }
    | .goes (s, some d) => .goes { s with handler := .disconnects d }
    | .blocked => .blocked
    | .wild => .wild
  | _, _ => .blocked

/-- A step of either thread. -/
def step (e : NetStep ⊕ HandlerStep) (s : Connections) : Next Connections :=
  match e with
  | .inl e => stepNet max_size e s
  | .inr e => stepHandler max_size e s

/-- Before the first connection. -/
def init : Connections := {
  opened := ∅
  fdToId := fun _ => none
  connections := fun _ => none
  last := 0
  sigs := []
  reqContexts := ∅
  net := .idle
  handler := .idle }

end Connections

end Ztsdb.Net
