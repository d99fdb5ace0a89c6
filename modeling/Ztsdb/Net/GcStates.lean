import Mathlib
import Ztsdb.Lib.Outcome
import Ztsdb.Arr.Machine
import Ztsdb.Net.RemoteContext

/-!
# Collecting evaluations

An evaluation sends requests of its own and keeps a response state for each of them, complete
or not, with the time that the request was sent at. `gc_states` is to erase the evaluations that
are blocked on a response for too long, and to tell the peer of each that it has.

It looks at the times alone: a response that came long ago counts as one that did not come. And
it tells the peer only of the evaluation that happens to be the current one.
-/

namespace Ztsdb.Net.GcStates

open Ztsdb.Lib Ztsdb.Arr Outcome

inductive IncomingRspState where
  | CTX_RSP_IDLE
  | CTX_RSP
  | CTX_RSP_DONE
  deriving DecidableEq

/-- The state of a response, with where its request went and when. -/
structure RspState where
  ip : String
  port : Int
  peerid : conn_id_t
  state : IncomingRspState
  timestamp : Int
  deriving DecidableEq

/-- An evaluation at its address, with the responses by the ids of their requests. -/
structure InterpState where
  addr : Nat
  reqid : reqid_t
  sourceid : reqid_t
  peerid : conn_id_t
  responses : List (reqid_t × RspState)
  deriving DecidableEq

/-- An error that has been sent as the response to a request. -/
structure Answer where
  peerid : conn_id_t
  reqid : reqid_t
  sourceid : reqid_t
  what : String
  deriving DecidableEq

/-- The context of a connection, with the answers it has sent. -/
structure InterpCtx where
  states : List InterpState
  s : Option Nat
  sent : List Answer
  deriving DecidableEq

/-! ## Responses -/

/-- `RspState::readData`, which leaves `n` of `exp` bytes of the value read. -/
def RspState.readData (r : RspState) (n exp : Nat) : RspState :=
  let r := if r.state = .CTX_RSP_IDLE then { r with state := .CTX_RSP } else r
  if exp ≤ n then { r with state := .CTX_RSP_DONE } else r

namespace InterpCtx

/-- `sendReq` of the current evaluation. The ids of requests ascend. -/
def sendReq (ctx : InterpCtx) (reqid : reqid_t) (ip : String) (port : Int) (peerid : conn_id_t)
    (now : Int) : InterpCtx :=
  { ctx with states := ctx.states.map fun st =>
      if ctx.s = some st.addr ∧ reqid ∉ st.responses.map Prod.fst then
        { st with responses := st.responses ++ [(reqid, ⟨ip, port, peerid, .CTX_RSP_IDLE, now⟩)] }
      else st }

/-- `readRspData` up to where a complete response makes its evaluation the current one. -/
def readRspData (ctx : InterpCtx) (reqid sourceid : reqid_t) (n exp : Nat) : InterpCtx :=
  match ctx.states.find? fun st => st.reqid = sourceid with
  | none => ctx
  | some st =>
    match st.responses.lookup reqid with
    | none => { ctx with states := ctx.states.filter fun st => st.reqid ≠ sourceid }
    | some rsp =>
      let rsp := rsp.readData n exp
      let responses := st.responses.map fun r => if r.1 = reqid then (reqid, rsp) else r
      let states := ctx.states.map fun st =>
        if st.reqid = sourceid then { st with responses } else st
      if rsp.state = .CTX_RSP_DONE then { ctx with states, s := some st.addr }
      else { ctx with states }

end InterpCtx

/-! ## Collection -/

/-- The time of a response is too long ago. -/
def RspState.overdue (now ttl : Int) (r : RspState) : Bool := decide (ttl < now - r.timestamp)

/-- The first response that the inner loop of `gc_states` stops at. -/
def InterpState.rspInfo (now ttl : Int) (st : InterpState) : Option (reqid_t × RspState) :=
  st.responses.find? fun r => r.2.overdue now ttl

/-- What `InterpCtxRemote::sendGcStateMessage` sends. -/
def sendGcStateMessage (rsp : RspState) (st : InterpState) : Answer where
  peerid := st.peerid
  reqid := st.reqid
  sourceid := st.sourceid
  what := "remote: response time out from " ++ rsp.ip ++ ":" ++ toString rsp.port ++ " [" ++
    toString rsp.peerid ++ "]"

/-- What a call that could not write to its socket throws. -/
def sendError : Exn := .systemError "write"

/-- The loop of `gc_states` over the states that are left, with `s` and what has been sent;
`sends` tells whether `sendRsp` returns. -/
def gcLoop (now ttl : Int) (sends : Bool) :
    List InterpState → Option Nat → List Answer →
      Outcome Exn (List InterpState × Option Nat × List Answer) Unit
  | [], s, sent => .ok () ([], s, sent)
  | st :: sts, s, sent =>
    match st.rspInfo now ttl with
    | none => (gcLoop now ttl sends sts s sent).mapState fun r => (st :: r.1, r.2)
    | some rsp =>
      if s = some st.addr then
        if sends then gcLoop now ttl sends sts none (sent ++ [sendGcStateMessage rsp.2 st])
        else .throw sendError (st :: sts, s, sent)
      else gcLoop now ttl sends sts s sent

/-- `gc_states`. -/
def InterpCtx.gc_states (ctx : InterpCtx) (now ttl : Int) (sends : Bool) :
    Outcome Exn InterpCtx Unit :=
  (gcLoop now ttl sends ctx.states ctx.s ctx.sent).mapState fun r => ⟨r.1, r.2.1, r.2.2⟩

/-! ## What is erased and answered -/

/-- Some response has an old time. -/
def InterpState.Expired (now ttl : Int) (st : InterpState) : Prop :=
  ∃ r ∈ st.responses, r.2.overdue now ttl = true

/-- Some response is not complete and has an old time. -/
def InterpState.Blocked (now ttl : Int) (st : InterpState) : Prop :=
  ∃ r ∈ st.responses, r.2.overdue now ttl = true ∧ r.2.state ≠ .CTX_RSP_DONE

instance (now ttl : Int) (st : InterpState) : Decidable (st.Expired now ttl) :=
  inferInstanceAs (Decidable (∃ r ∈ st.responses, _))

instance (now ttl : Int) (st : InterpState) : Decidable (st.Blocked now ttl) :=
  inferInstanceAs (Decidable (∃ r ∈ st.responses, _))

/-- An answer to the request of an evaluation. -/
structure Answer.Tells (a : Answer) (st : InterpState) : Prop where
  peerid : a.peerid = st.peerid
  reqid : a.reqid = st.reqid
  sourceid : a.sourceid = st.sourceid

/-- The map of evaluations has one for an id, and no two are at one address. -/
structure InterpCtx.Distinct (ctx : InterpCtx) : Prop where
  reqid : (ctx.states.map InterpState.reqid).Nodup
  addr : (ctx.states.map InterpState.addr).Nodup

/-- The blocked evaluations are erased, and the peer is told so of every one erased. -/
structure Collected (now ttl : Int) (ctx ctx' : InterpCtx) : Prop where
  erased : ∀ st ∈ ctx.states, st ∉ ctx'.states ↔ st.Blocked now ttl
  told : ∃ new, ctx'.sent = ctx.sent ++ new ∧
    ∀ st ∈ ctx.states, st ∉ ctx'.states → ∃ a ∈ new, a.Tells st

def Collects (ctx : InterpCtx) (now ttl : Int) (sends : Bool) : Prop :=
  ∃ ctx', ctx.gc_states now ttl sends = .ok () ctx' ∧ Collected now ttl ctx ctx'

/-- Where a time is old it is that of a response to come, and the evaluation is the current one,
whose peer can be told. -/
structure Due (ctx : InterpCtx) (now ttl : Int) (sends : Bool) : Prop where
  blocked : ∀ st ∈ ctx.states, st.Expired now ttl → st.Blocked now ttl
  current : ∀ st ∈ ctx.states, st.Expired now ttl → ctx.s = some st.addr ∧ sends = true

variable {now ttl : Int} {sends : Bool} {st : InterpState} {sts : List InterpState}
  {s : Option Nat} {sent : List Answer} {ctx ctx' : InterpCtx}

theorem InterpCtx.Distinct.of_sublist (h : ctx.Distinct) (hsub : ctx'.states.Sublist ctx.states) :
    ctx'.Distinct :=
  ⟨h.reqid.sublist (hsub.map _), h.addr.sublist (hsub.map _)⟩

theorem InterpCtx.Distinct.of_map (h : ctx.Distinct) {f : InterpState → InterpState}
    (hstates : ctx'.states = ctx.states.map f) (hreqid : ∀ st, (f st).reqid = st.reqid)
    (haddr : ∀ st, (f st).addr = st.addr) : ctx'.Distinct := by
  have hreqids : ctx'.states.map InterpState.reqid = ctx.states.map InterpState.reqid := by
    rw [hstates, List.map_map, show InterpState.reqid ∘ f = InterpState.reqid from funext hreqid]
  have haddrs : ctx'.states.map InterpState.addr = ctx.states.map InterpState.addr := by
    rw [hstates, List.map_map, show InterpState.addr ∘ f = InterpState.addr from funext haddr]
  exact ⟨hreqids ▸ h.reqid, haddrs ▸ h.addr⟩

theorem InterpCtx.Distinct.sendReq (h : ctx.Distinct) (reqid : reqid_t) (ip : String) (port : Int)
    (peerid : conn_id_t) (now : Int) : (ctx.sendReq reqid ip port peerid now).Distinct := by
  refine h.of_map rfl (fun st => ?_) fun st => ?_
  all_goals split <;> rfl

theorem InterpCtx.Distinct.readRspData (h : ctx.Distinct) (reqid sourceid : reqid_t) (n exp : Nat) :
    (ctx.readRspData reqid sourceid n exp).Distinct := by
  rw [InterpCtx.readRspData]
  split
  · exact h
  · split
    · exact h.of_sublist List.filter_sublist
    · simp only
      split
      all_goals
        refine h.of_map rfl (fun st => ?_) fun st => ?_
        all_goals split <;> rfl

theorem rspInfo_eq_none_iff : st.rspInfo now ttl = none ↔ ¬st.Expired now ttl := by
  rw [InterpState.rspInfo, List.find?_eq_none, InterpState.Expired]
  simp only [not_exists, not_and]

variable (sent) in
/-- Where nothing that `s` points to has expired, or can be sent, the loop erases what has
expired and tells of what `s` points to. -/
theorem gcLoop_spec (haddr : (sts.map InterpState.addr).Nodup)
    (hsends : ∀ st ∈ sts, st.Expired now ttl → s = some st.addr → sends = true) :
    ∃ s' new, gcLoop now ttl sends sts s sent =
        .ok () (sts.filter fun st => ¬st.Expired now ttl, s', sent ++ new) ∧
      (∀ a ∈ new, ∃ st ∈ sts, st.Expired now ttl ∧ s = some st.addr ∧ a.Tells st) ∧
      ∀ st ∈ sts, st.Expired now ttl → s = some st.addr → ∃ a ∈ new, a.Tells st := by
  induction sts generalizing s sent with
  | nil =>
      refine ⟨s, [], ?_, nofun, nofun⟩
      rw [gcLoop, List.append_nil]
      rfl
  | cons st sts ih =>
      have hrest := (List.nodup_cons.mp haddr).2
      rw [gcLoop]
      cases hinfo : st.rspInfo now ttl with
      | none =>
          have hkept := rspInfo_eq_none_iff.mp hinfo
          obtain ⟨s', new, hloop, honly, hall⟩ :=
            @ih s sent hrest fun x hx => hsends x (.tail _ hx)
          refine ⟨s', new, ?_, fun a ha => ?_, fun x hx hexp hs => ?_⟩
          · simp only [hloop, mapState_ok, List.filter_cons, hkept, not_false_eq_true, decide_true,
              if_true]
          · obtain ⟨x, hx, hspec⟩ := honly a ha
            exact ⟨x, .tail _ hx, hspec⟩
          · rcases List.mem_cons.mp hx with rfl | hx
            · exact absurd hexp hkept
            · exact hall x hx hexp hs
      | some rsp =>
          have hexp : st.Expired now ttl := by
            by_contra hkept
            rw [rspInfo_eq_none_iff.mpr hkept] at hinfo
            cases hinfo
          have hfilter : ((st :: sts).filter fun st => ¬st.Expired now ttl) =
              sts.filter fun st => ¬st.Expired now ttl := by
            simp [hexp]
          simp only
          by_cases hs : s = some st.addr
          · -- no state behind is at the same address
            obtain rfl := hsends st (.head _) hexp hs
            rw [if_pos hs, if_pos rfl]
            obtain ⟨s', new, hloop, honly, -⟩ :=
              @ih none (sent ++ [sendGcStateMessage rsp.2 st]) hrest nofun
            rw [List.append_assoc] at hloop
            refine ⟨s', _, by rw [hloop, hfilter], fun a ha => ?_, fun x hx _ hs' => ?_⟩
            · rcases List.mem_append.mp ha with ha | ha
              · obtain rfl := List.mem_singleton.mp ha
                exact ⟨st, .head _, hexp, hs, rfl, rfl, rfl⟩
              · obtain ⟨_, -, -, hnone, -⟩ := honly a ha
                cases hnone
            · have heq : x = st := by
                rcases List.mem_cons.mp hx with rfl | hx
                · rfl
                · have hsame : st.addr = x.addr := Option.some.inj (hs.symm.trans hs')
                  exact absurd (hsame ▸ List.mem_map_of_mem hx) (List.nodup_cons.mp haddr).1
              subst heq
              exact ⟨_, List.mem_append_left _ (List.mem_singleton_self _), rfl, rfl, rfl⟩
          · rw [if_neg hs]
            obtain ⟨s', new, hloop, honly, hall⟩ :=
              @ih s sent hrest fun x hx => hsends x (.tail _ hx)
            refine ⟨s', new, by rw [hloop, hfilter], fun a ha => ?_, fun x hx hexp' hs' => ?_⟩
            · obtain ⟨x, hx, hspec⟩ := honly a ha
              exact ⟨x, .tail _ hx, hspec⟩
            · rcases List.mem_cons.mp hx with rfl | hx
              · exact absurd hs' hs
              · exact hall x hx hexp' hs'

variable (sent) in
/-- Where the message cannot be sent the loop does not return. -/
theorem gcLoop_throws (h : ∃ st ∈ sts, st.Expired now ttl ∧ s = some st.addr) :
    ∃ r, gcLoop now ttl false sts s sent = .throw sendError r := by
  induction sts with
  | nil =>
      obtain ⟨_, hmem, -⟩ := h
      cases hmem
  | cons st sts ih =>
      rw [gcLoop]
      cases hinfo : st.rspInfo now ttl with
      | none =>
          obtain ⟨x, hx, hexp, hs⟩ := h
          rcases List.mem_cons.mp hx with rfl | hx
          · exact absurd hexp (rspInfo_eq_none_iff.mp hinfo)
          · obtain ⟨r, hr⟩ := ih ⟨x, hx, hexp, hs⟩
            simp only
            rw [hr]
            exact ⟨_, rfl⟩
      | some rsp =>
          simp only
          split
          · exact ⟨_, rfl⟩
          · next hne =>
              obtain ⟨x, hx, hexp, hs⟩ := h
              rcases List.mem_cons.mp hx with rfl | hx
              · exact absurd hs hne
              · exact ih ⟨x, hx, hexp, hs⟩

/-- What has expired goes, and all else stays. -/
theorem not_mem_filter_iff (h : st ∈ sts) :
    st ∉ (sts.filter fun st => ¬st.Expired now ttl) ↔ st.Expired now ttl := by
  simp [List.mem_filter, h]

/-- The blocked evaluations are collected when every old time is that of a response to come, and
no evaluation but the current one has any. -/
theorem collects_iff (h : ctx.Distinct) (now ttl : Int) (sends : Bool) :
    Collects ctx now ttl sends ↔ Due ctx now ttl sends := by
  constructor
  · intro ⟨ctx', hgc, hcol⟩
    have hsends : ∀ st ∈ ctx.states, st.Expired now ttl → ctx.s = some st.addr → sends = true := by
      intro st hst hexp hs
      by_contra hnot
      rw [Bool.not_eq_true] at hnot
      obtain ⟨r, hr⟩ := gcLoop_throws ctx.sent ⟨st, hst, hexp, hs⟩
      rw [InterpCtx.gc_states, hnot, hr] at hgc
      cases hgc
    obtain ⟨s', new, hloop, honly, -⟩ := gcLoop_spec ctx.sent h.addr hsends
    rw [InterpCtx.gc_states, hloop] at hgc
    cases hgc
    obtain ⟨hersd, new', hnew, htold⟩ := hcol
    obtain rfl := List.append_cancel_left hnew
    refine ⟨fun st hst hexp => ?_, fun st hst hexp => ?_⟩
    · exact (hersd st hst).mp ((not_mem_filter_iff hst).mpr hexp)
    · obtain ⟨a, ha, htells⟩ := htold st hst ((not_mem_filter_iff hst).mpr hexp)
      obtain ⟨x, hx, hexp', hs, htells'⟩ := honly a ha
      have heq : st = x :=
        List.inj_on_of_nodup_map h.reqid hst hx (htells.reqid.symm.trans htells'.reqid)
      subst heq
      exact ⟨hs, hsends st hst hexp hs⟩
  · intro hdue
    obtain ⟨s', new, hloop, -, hall⟩ := gcLoop_spec ctx.sent h.addr
      fun st hst hexp _ => (hdue.current st hst hexp).2
    refine ⟨_, by rw [InterpCtx.gc_states, hloop]; rfl, fun st hst => ?_, new, rfl,
      fun st hst hgone => ?_⟩
    · refine (not_mem_filter_iff hst).trans ⟨hdue.blocked st hst, ?_⟩
      rintro ⟨r, hr, hold, -⟩
      exact ⟨r, hr, hold⟩
    · have hexp := (not_mem_filter_iff hst).mp hgone
      exact hall st hst hexp (hdue.current st hst hexp).1

instance (ctx : InterpCtx) : Decidable ctx.Distinct :=
  decidable_of_iff ((ctx.states.map InterpState.reqid).Nodup ∧
    (ctx.states.map InterpState.addr).Nodup) ⟨fun h => ⟨h.1, h.2⟩, fun h => ⟨h.reqid, h.addr⟩⟩

/-- The current evaluation waits for too long, and another one has just been answered. -/
theorem collects_iff_current :
    Collects ⟨[⟨1, 7, 3, 2, [(50, ⟨"10.0.0.1", 9000, 4, .CTX_RSP, 0⟩)]⟩,
      ⟨2, 8, 5, 2, [(51, ⟨"10.0.0.1", 9000, 4, .CTX_RSP_DONE, 190⟩)]⟩], some 1, []⟩ 200 180 true :=
  (collects_iff (by decide) 200 180 true).mpr ⟨by decide, by decide⟩

/-- A request at 0 is answered at once, the evaluation sends another one at 190, and at 200 it is
erased for the first one. -/
theorem not_collects :
    ¬∀ ctx : InterpCtx, ctx.Distinct → ∀ now ttl, Collects ctx now ttl true := by
  intro h
  let sentOnce := InterpCtx.sendReq ⟨[⟨1, 7, 3, 2, []⟩], some 1, []⟩ 50 "10.0.0.1" 9000 4 0
  let sentTwice := (sentOnce.readRspData 50 7 8 8).sendReq 51 "10.0.0.1" 9000 4 190
  obtain ⟨ctx', hgc, hcol⟩ := h sentTwice (by decide) 200 180
  have hempty : ∃ s sent, sentTwice.gc_states 200 180 true = .ok () ⟨[], s, sent⟩ := ⟨_, _, rfl⟩
  obtain ⟨s, sent, heq⟩ := hempty
  rw [heq] at hgc
  cases hgc
  have hst : sentTwice.states = [⟨1, 7, 3, 2, [(50, ⟨"10.0.0.1", 9000, 4, .CTX_RSP_DONE, 0⟩),
    (51, ⟨"10.0.0.1", 9000, 4, .CTX_RSP_IDLE, 190⟩)]⟩] := rfl
  have hblocked := (hcol.erased _ (hst ▸ List.mem_singleton_self _)).mp List.not_mem_nil
  revert hblocked
  decide

end Ztsdb.Net.GcStates
