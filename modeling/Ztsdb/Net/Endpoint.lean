import Mathlib
import Ztsdb.Net.Frames
import Ztsdb.Net.Ready
import Ztsdb.Net.Request

/-!
# One end of a connection

The network thread puts messages together, and the handler takes them one by one. The first
words of a message say what it is a part of: the chunks of a request are collected under its
number, those of a response by the state that has sent the request. What comes on one
connection belongs to many requests and responses, in any order.

Here the contexts of the connection are there, and no message is dropped for its age or for
want of room. What the interpreter waits for, and what is collected of requests, may change
between any two steps.
-/

namespace Ztsdb.Net

open Ztsdb.Lib Ztsdb.Arr Ztsdb.Lang

def MsgType.number : MsgType → Nat
  | REQ => 0
  | RSP => 1
  | APPEND => 2
  | APPEND_VECTOR => 3

/-- A chunk behind the words of its message. -/
def message (mt : MsgType) (reqid sourceid : reqid_t) (chunk : List UInt8) : List UInt8 :=
  leBytes 8 mt.number ++ (leBytes 8 reqid ++ (leBytes 8 sourceid ++ chunk))

/-- The words that are read of a message are there. -/
def Headed (m : List UInt8) : Prop :=
  8 ≤ m.length ∧ (leNat (slice 0 8 m) ≤ MsgType.RSP.number → 24 ≤ m.length)

instance : DecidablePred Headed := fun _ => inferInstanceAs (Decidable (_ ∧ _))

/-- The number of a request and of the state it comes from, where a message is of a type. -/
def headOf (mt : MsgType) (m : List UInt8) : Option (reqid_t × reqid_t) :=
  if 24 ≤ m.length ∧ leNat (slice 0 8 m) = mt.number then
    some (leNat (slice 8 8 m), leNat (slice 16 8 m))
  else none

/-- A request that the interpreter has been given. -/
structure Begun where
  reqid : reqid_t
  sourceid : reqid_t
  e : Option E
  boundvars : List (List UInt8 × Val)

/-- The tables of one end. The requests are those that are collected; the states of the
interpreter have the responses they wait for. -/
structure Endpoint where
  net : Reading
  taken : Nat
  requests : reqid_t → Option Request.ReqState
  states : reqid_t → Option (reqid_t → Option RspState)
  begun : List Begun
  answers : List ((reqid_t × reqid_t) × Val)

inductive EndpointEvent where
  | net (e : ReadEvent)
  /-- The handler takes a message; `k` bounds the depth and the turns of its reading. -/
  | handle (k : Nat)
  /-- It takes one that makes it throw; of a response `left` is what has been read. -/
  | refuse (left : RspState)
  /-- The interpreter goes on. -/
  | interpret (states : reqid_t → Option (reqid_t → Option RspState))
  | gc_requests (keep : reqid_t → Bool)

namespace Endpoint

/-- The response to a request, as far as it is there. -/
def waits (s : Endpoint) (key : reqid_t × reqid_t) : Option RspState :=
  (s.states key.2).bind fun responses => responses key.1

def answersTo (s : Endpoint) (key : reqid_t × reqid_t) : List Val :=
  (s.answers.filter fun x => x.1 = key).map Prod.snd

def begunOf (s : Endpoint) (reqid : reqid_t) : List Begun := s.begun.filter fun b => b.reqid = reqid

/-- `InterpCtx::readReqData`. A list of bound variables that is none makes it throw. -/
def readReqData (k : Nat) (reqid sourceid : reqid_t) (buf : List UInt8) (s : Endpoint) :
    Option Endpoint :=
  (((s.requests reqid).getD Request.ReqState.init).readData k buf).map fun req =>
    match req.state, req.valstack.head?.map ValState.val with
    | .CTX_REQ_DONE, some (.list l) =>
      { s with
        requests := Function.update s.requests reqid none
        begun := s.begun ++ [⟨reqid, sourceid, req.e, l⟩] }
    | _, _ => { s with requests := Function.update s.requests reqid (some req) }

/-- A response that has been read on; a complete one goes to the interpreter. -/
def setRsp (reqid sourceid : reqid_t) (responses : reqid_t → Option RspState) (rsp : RspState)
    (s : Endpoint) : Endpoint :=
  { s with
    states := Function.update s.states sourceid (some (Function.update responses reqid (some rsp)))
    answers := s.answers ++
      if rsp.state = .CTX_RSP_DONE then
        (rsp.valstack.head?.map fun vs => ((reqid, sourceid), vs.val)).toList
      else [] }

/-- `InterpCtx::readRspData`. A response that its state does not wait for removes the state. -/
def readRspData (k : Nat) (reqid sourceid : reqid_t) (buf : List UInt8) (s : Endpoint) :
    Option Endpoint :=
  match s.states sourceid with
  | none => some s
  | some responses =>
    match responses reqid with
    | none => some { s with states := Function.update s.states sourceid none }
    | some rsp => (rsp.readData k buf).map fun rsp => s.setRsp reqid sourceid responses rsp

/-- The handler with a message. -/
def dispatch (k : Nat) (m : List UInt8) (s : Endpoint) : Next Endpoint :=
  let s := { s with taken := s.taken + 1 }
  if ¬ Headed m then .wild
  else
    match headOf .REQ m, headOf .RSP m with
    | some (reqid, sourceid), _ => (s.readReqData k reqid sourceid (m.drop 24)).elim .blocked .goes
    | none, some (reqid, sourceid) =>
      (s.readRspData k reqid sourceid (m.drop 24)).elim .blocked .goes
    | none, none => .goes s

/-- What an exception leaves: a request is erased. -/
def refused (left : RspState) (m : List UInt8) (s : Endpoint) : Endpoint :=
  let s := { s with taken := s.taken + 1 }
  match headOf .REQ m, headOf .RSP m with
  | some (reqid, _), _ => { s with requests := Function.update s.requests reqid none }
  | none, some (reqid, sourceid) =>
    { s with
      states := Function.update s.states sourceid
        ((s.states sourceid).map fun responses =>
          Function.update responses reqid ((responses reqid).map fun _ => left)) }
  | none, none => s

def step (e : EndpointEvent) (s : Endpoint) : Next Endpoint :=
  match e with
  | .net e =>
    match s.net.step e with
    | .goes net => .goes { s with net }
    | .blocked => .blocked
    | .wild => .wild
  | .handle k =>
    match s.net.ready[s.taken]? with
    | some m => s.dispatch k m
    | none => .blocked
  | .refuse left =>
    match s.net.ready[s.taken]? with
    | some m => .goes (s.refused left m)
    | none => .blocked
  | .interpret states => .goes { s with states }
  | .gc_requests keep => .goes { s with requests := fun r => if keep r then s.requests r else none }

variable {s s' : Endpoint} {m : List UInt8} {payloads : List (List UInt8)}

/-! ## Messages -/

theorem drop_message (mt : MsgType) (reqid sourceid : reqid_t) (c : List UInt8) :
    (message mt reqid sourceid c).drop 24 = c := by
  rw [message, ← List.append_assoc, ← List.append_assoc]
  exact List.drop_left' (by simp only [List.length_append, length_leBytes])

theorem headOf_message {mt : MsgType} {reqid sourceid : reqid_t} (c : List UInt8) (hr : reqid < 2 ^ 64)
    (hs : sourceid < 2 ^ 64) : headOf mt (message mt reqid sourceid c) = some (reqid, sourceid) := by
  have hword (n : Nat) (hn : n < 2 ^ 64) : leNat (leBytes 8 n) = n := by
    rw [leNat_leBytes, Nat.mod_eq_of_lt (by norm_num at hn ⊢; exact hn)]
  have hmt : mt.number < 2 ^ 64 := by
    cases mt
    all_goals decide
  have hlen (n : Nat) : 8 = (leBytes 8 n).length := (length_leBytes 8 n).symm
  have h0 : slice 0 8 (message mt reqid sourceid c) = leBytes 8 mt.number :=
    slice_append_right [] _ _ (hlen _)
  have h8 : slice 8 8 (message mt reqid sourceid c) = leBytes 8 reqid :=
    slice_append_right (leBytes 8 mt.number) _ _ (hlen _)
  have h16 : slice 16 8 (message mt reqid sourceid c) = leBytes 8 sourceid := by
    rw [message, ← List.append_assoc]
    exact slice_append_right (leBytes 8 mt.number ++ leBytes 8 reqid) _ _ (hlen _)
  rw [headOf, h0, h8, h16, hword _ hmt, hword _ hr, hword _ hs, if_pos]
  refine ⟨?_, rfl⟩
  simp only [message, List.length_append, length_leBytes]
  omega

/-- A message is of one type. -/
theorem headOf_rsp_of_req {x : reqid_t × reqid_t} (h : headOf .REQ m = some x) : headOf .RSP m = none := by
  rw [headOf] at h
  split at h
  · next hm =>
      rw [headOf, if_neg]
      rintro ⟨-, hrsp⟩
      rw [hm.2] at hrsp
      cases hrsp
  · cases h

theorem headOf_req_of_rsp {x : reqid_t × reqid_t} (h : headOf .RSP m = some x) : headOf .REQ m = none := by
  cases hreq : headOf .REQ m with
  | none => rfl
  | some y =>
      rw [headOf_rsp_of_req hreq] at h
      cases h

/-! ## Steps -/

/-- The messages of a peer: frames with the words that are read of them. -/
def Messages (payloads : List (List UInt8)) : Prop := ∀ p ∈ payloads, WellFormed p ∧ Headed p

instance : DecidablePred Messages := fun _ => inferInstanceAs (Decidable (∀ _ ∈ _, _))

theorem Messages.headed {n : Nat} (h : Messages payloads) (hm : payloads[n]? = some m) : Headed m :=
  (h m (List.mem_of_getElem? hm)).2

/-- The network thread has put together a part of the stream. -/
def Assembles (payloads : List (List UInt8)) (s : Endpoint) : Prop := ∃ rest, s.net.Assembled payloads rest

/-- A message on the ready list is the one of the stream. -/
theorem Assembles.message {n : Nat} (h : Assembles payloads s) (hm : s.net.ready[n]? = some m) :
    payloads[n]? = some m := by
  obtain ⟨rest, hrest⟩ := h
  rw [hrest.split, List.getElem?_append_left (List.getElem?_eq_some_iff.mp hm).1]
  exact hm

theorem Assembles.congr (h : Assembles payloads s) (hn : s'.net = s.net) : Assembles payloads s' := by
  rw [Assembles, hn]
  exact h

theorem Assembles.delivered (h : Assembles payloads s) : s.net.Delivered payloads := by
  obtain ⟨rest, hrest⟩ := h
  exact ⟨hrest.ready_eq, hrest.waiting⟩

/-- What a step can do. -/
theorem step_cases {e : EndpointEvent} (h : step e s = .goes s') :
    (∃ r net, e = .net r ∧ s.net.step r = .goes net ∧ s' = { s with net }) ∨
    (∃ k m, e = .handle k ∧ s.net.ready[s.taken]? = some m ∧ s.dispatch k m = .goes s') ∨
    (∃ left m, e = .refuse left ∧ s.net.ready[s.taken]? = some m ∧ s' = s.refused left m) ∨
    (∃ states, e = .interpret states ∧ s' = { s with states }) ∨
    (∃ keep, e = .gc_requests keep ∧
      s' = { s with requests := fun r => if keep r then s.requests r else none }) := by
  cases e with
  | net r =>
      rw [step] at h
      cases hnet : s.net.step r with
      | goes net =>
          rw [hnet] at h
          cases h
          exact .inl ⟨r, net, rfl, hnet, rfl⟩
      | blocked =>
          rw [hnet] at h
          cases h
      | wild =>
          rw [hnet] at h
          cases h
  | handle k =>
      rw [step] at h
      cases hm : s.net.ready[s.taken]? with
      | none =>
          rw [hm] at h
          cases h
      | some m =>
          rw [hm] at h
          exact .inr (.inl ⟨k, m, rfl, rfl, h⟩)
  | refuse left =>
      rw [step] at h
      cases hm : s.net.ready[s.taken]? with
      | none =>
          rw [hm] at h
          cases h
      | some m =>
          rw [hm] at h
          cases h
          exact .inr (.inr (.inl ⟨left, m, rfl, rfl, rfl⟩))
  | interpret states =>
      cases h
      exact .inr (.inr (.inr (.inl ⟨states, rfl, rfl⟩)))
  | gc_requests keep =>
      cases h
      exact .inr (.inr (.inr (.inr ⟨keep, rfl, rfl⟩)))

theorem Assembles.net {r : ReadEvent} {net : Reading} (h : Assembles payloads s) (hp : Messages payloads)
    (hgo : s.net.step r = .goes net) : Assembles payloads { s with net } := by
  obtain ⟨rest, h⟩ := h
  exact h.step (fun p hmem => (hp p hmem).1) hgo

theorem step_ne_wild {e : EndpointEvent} (hnet : Assembles payloads s)
    (hp : Messages payloads) : step e s ≠ .wild := by
  intro h
  cases e with
  | net e =>
      rw [step] at h
      cases hs : s.net.step e with
      | goes net =>
          rw [hs] at h
          cases h
      | blocked =>
          rw [hs] at h
          cases h
      | wild => exact Reading.step_ne_wild hs
  | handle k =>
      rw [step] at h
      cases hm : s.net.ready[s.taken]? with
      | none =>
          rw [hm] at h
          cases h
      | some m =>
          rw [hm] at h
          change s.dispatch k m = .wild at h
          have helim (o : Option Endpoint) : o.elim .blocked .goes ≠ (.wild : Next Endpoint) := by
            cases o with
            | none => exact fun h => by cases h
            | some s => exact fun h => by cases h
          rw [dispatch, if_neg (not_not.mpr (hp.headed (hnet.message hm)))] at h
          split at h
          · exact helim _ h
          · exact helim _ h
          · cases h
  | refuse left =>
      rw [step] at h
      split at h <;> cases h
  | interpret states => cases h
  | gc_requests keep => cases h

/-- A connection on which nothing has come yet. -/
structure Starts (payloads : List (List UInt8)) (s : Endpoint) : Prop where
  net : s.net = Reading.init payloads
  taken : s.taken = 0
  begun : s.begun = []
  answers : s.answers = []

theorem Starts.assembles (h : Starts payloads s) : Assembles payloads s :=
  ⟨payloads, h.net ▸ Reading.init_assembled payloads⟩

/-- What comes of the reading of a message. -/
theorem goes_of_elim {o : Option Endpoint} (h : o.elim .blocked .goes = Next.goes s') : o = some s' := by
  cases o with
  | none => cases h
  | some s =>
      cases h
      rfl

/-! ## Reading to the end -/

/-- Frames that have come are read one after the other. -/
theorem read_frames {rest done : List (List UInt8)} {first_read : Bool} (hw : ∀ p ∈ rest, WellFormed p) :
    ∃ b, Run Reading.step (fun _ _ => True) ⟨[], stream rest, false, none, done, .top first_read⟩
      ⟨[], [], false, none, done ++ rest, .top b⟩ := by
  induction rest generalizing done first_read with
  | nil => exact ⟨first_read, by rw [List.append_nil]; exact .start⟩
  | cons p rest ih =>
      obtain ⟨⟨hne, -⟩, hrest⟩ := List.forall_mem_cons.mp hw
      have hpos : 0 < p.length := List.length_pos_of_ne_nil hne
      have hlen : (stream (p :: rest)).length = p.length + 16 + (stream rest).length := by
        rw [Reading.stream_cons, List.length_append, Reading.length_frame]
      obtain ⟨p', rest', he, hmagic, hwsub, hdrop⟩ := @Reading.header_of_stream _ (stream (p :: rest)) [] hw
        (List.append_nil _) (by omega)
      obtain ⟨rfl, rfl⟩ := List.cons.inj he
      rw [List.append_nil] at hdrop
      have hheader : Reading.step (.next 0) ⟨[], stream (p :: rest), false, none, done, .top first_read⟩ =
          .goes ⟨[], p ++ stream rest, false, some ⟨p.length, []⟩, done, .fill false⟩ := by
        show Next.goes (Reading.readHeader first_read _) = _
        rw [Reading.readHeader, if_neg (by dsimp only; omega), if_neg (not_not.mpr hmagic), hdrop, hwsub]
      have hpayload : Reading.step (.next p.length)
          ⟨[], p ++ stream rest, false, some ⟨p.length, []⟩, done, .fill false⟩ =
          .goes ⟨[], stream rest, false, none, done ++ [p], .top false⟩ := by
        simp [Reading.step, Reading.readPayload, hne, hpos, hpos.ne']
      obtain ⟨b, hrun⟩ := @ih (done ++ [p]) false hrest
      rw [List.append_assoc] at hrun
      exact ⟨b, ((Run.start.step trivial hheader).step trivial hpayload).trans hrun⟩

/-- A stream can be read to its end. -/
theorem read_all (hw : ∀ p ∈ payloads, WellFormed p) (hne : payloads ≠ []) :
    ∃ net, Run Reading.step (fun _ _ => True) (Reading.init payloads) net ∧ net.ready = payloads := by
  have hpos : 0 < (stream payloads).length := by
    cases payloads with
    | nil => exact absurd rfl hne
    | cons p ps =>
        rw [Reading.stream_cons, List.length_append, Reading.length_frame]
        omega
  have harrive : Reading.step (.arrive (stream payloads).length) (Reading.init payloads) =
      .goes ⟨[], stream payloads, true, none, [], .idle⟩ := by
    show (if 0 < (stream payloads).length ∧ _ then _ else _) = _
    rw [if_pos ⟨hpos, le_rfl⟩]
    simp [Reading.init]
  have hwake : Reading.step .wake ⟨[], stream payloads, true, none, [], .idle⟩ =
      .goes ⟨[], stream payloads, false, none, [], .top true⟩ := by
    show (if _ ∧ _ ∧ stream payloads ≠ [] then _ else _) = _
    rw [if_pos ⟨rfl, rfl, List.ne_nil_of_length_pos hpos⟩]
  obtain ⟨b, hrun⟩ := @read_frames payloads [] true hw
  exact ⟨_, ((Run.start.step trivial harrive).step trivial hwake).trans hrun, rfl⟩

/-- What the network thread does alone. -/
theorem run_net {C : EndpointEvent → Endpoint → Prop} (hC : ∀ r t, C (.net r) t) {net : Reading}
    (h : Run Reading.step (fun _ _ => True) s.net net) : Run step C s { s with net } := by
  induction h with
  | start => exact .start
  | @step r net net' _ _ hgo ih =>
      refine ih.step (hC r _) ?_
      rw [step]
      dsimp only
      rw [hgo]
  | @wild r net net' _ _ hgo ih => exact absurd hgo Reading.step_ne_wild

end Endpoint

end Ztsdb.Net
