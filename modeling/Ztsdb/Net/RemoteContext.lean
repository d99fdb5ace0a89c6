import Mathlib
import Ztsdb.Net.Connections

/-!
# The evaluation context of a connection

Requests come in chunks. When one is complete the context makes a state for it and
evaluates it; the evaluation may wait for the responses to requests of its own, and goes on
when one is complete. When it is over the context answers and erases the state. States that
have waited too long are collected.

A request is answered at most once, and once it is answered the context has no state of it,
in every run in which no evaluation ends in a value that cannot be sent: for such a value
the context answers and leaves the state where it is.
-/

namespace Ztsdb.Net

open Ztsdb.Lib

abbrev reqid_t := Nat

/-- How a step of the interpreter ends: the next step can go, the value of a future is not
there, the program is to quit, or another exception, with whether the frame has an escape
continuation for it. -/
inductive StepEnd where
  | goes
  | future
  | quit
  | raised (escape : Bool)
  deriving DecidableEq

/-- A step of the interpreter: the requests it sends, each with the time it is sent at, and
how it ends. -/
structure InterpStep where
  sent : List (reqid_t × Nat)
  ends : StepEnd
  deriving DecidableEq

/-- What `.Last.value` is when an evaluation is over. -/
inductive LastValue where
  | missing
  | future
  | value (transmissible : Bool)
  deriving DecidableEq

/-- What the interpreter does until it stops: its steps, whether an interrupt stops it,
whether it ends in an assignment, `.Last.value`, and whether `MsgHandler::sendRsp`
returns. -/
structure Evaluation where
  steps : List InterpStep
  sigint : Bool
  silent : Bool
  last : LastValue
  sends : Bool
  deriving DecidableEq

/-- The state of an evaluation, at its address. The map of the responses it waits for has
the time of each; `request` counts the complete requests that came before its own. -/
structure InterpState where
  addr : Nat
  reqid : reqid_t
  sourceid : reqid_t
  peerid : conn_id_t
  responses : List (reqid_t × Nat)
  request : Nat
  deriving DecidableEq

structure ReqState where
  reqid : reqid_t
  sourceid : reqid_t
  timestamp : Nat
  deriving DecidableEq

/-- The context, with the number of requests it has completely received and those it has
answered, the last first. -/
structure RemoteContext where
  requests : List ReqState
  states : List InterpState
  s : Option Nat
  received : Nat
  answered : List Nat
  deriving DecidableEq

/-- What comes of reading a chunk of a request: it is not complete, it is, its bytes are
not a request, or it is complete and its bound variables are not a list. -/
inductive ReqRead where
  | more
  | complete
  | invalid
  | unbound
  deriving DecidableEq

/-- What comes of reading a chunk of a response. -/
inductive RspRead where
  | more
  | complete
  | invalid
  deriving DecidableEq

/-- `responses.emplace` for one request after the other. -/
def emplaceAll (responses : List (reqid_t × Nat)) : List (reqid_t × Nat) → List (reqid_t × Nat)
  | [] => responses
  | r :: rs =>
    if r.1 ∈ responses.map Prod.fst then emplaceAll responses rs
    else emplaceAll (responses ++ [r]) rs

namespace InterpState

/-- The requests that a step sends. -/
def sendReqs (st : InterpState) (sent : List (reqid_t × Nat)) : InterpState :=
  { st with responses := emplaceAll st.responses sent }

/-- A state is too old when one of its responses is. -/
def expired (now ttl : Nat) (st : InterpState) : Bool :=
  st.responses.any fun r => ttl < now - r.2

end InterpState

/-- Where the loop of the interpreter stops. -/
inductive Stopped where
  | waits
  | raised
  | finished
  deriving DecidableEq

/-- The loop of `interpret`: an exception with an escape continuation goes on from there,
and the one to quit is dropped. -/
def runSteps : List InterpStep → InterpState → Stopped × InterpState
  | [], st => (.finished, st)
  | t :: ts, st =>
    match t.ends with
    | .goes | .quit | .raised true => runSteps ts (st.sendReqs t.sent)
    | .future => (.waits, st.sendReqs t.sent)
    | .raised false => (.raised, st.sendReqs t.sent)

/-- Whether the evaluation ends in a value that cannot be sent, and its peer is told so. -/
def Evaluation.refused (ev : Evaluation) (st : InterpState) : Bool :=
  (runSteps ev.steps st).1 = .finished && !ev.sigint && !ev.silent &&
    ev.last = .value false && ev.sends

/-- The loop changes the responses of a state and nothing else. -/
theorem runSteps_eq (ts : List InterpStep) (st : InterpState) :
    (runSteps ts st).2 = { st with responses := (runSteps ts st).2.responses } := by
  induction ts generalizing st with
  | nil => rfl
  | cons t ts ih =>
      rw [runSteps]
      split
      · exact ih _
      · exact ih _
      · exact ih _
      · rfl
      · rfl

@[simp] theorem runSteps_reqid (ts : List InterpStep) (st : InterpState) :
    (runSteps ts st).2.reqid = st.reqid := by
  rw [runSteps_eq]

@[simp] theorem runSteps_request (ts : List InterpStep) (st : InterpState) :
    (runSteps ts st).2.request = st.request := by
  rw [runSteps_eq]

namespace RemoteContext

/-- `states.find`. -/
def find (ctx : RemoteContext) (reqid : reqid_t) : Option InterpState :=
  ctx.states.find? fun st => st.reqid = reqid

/-- `states.erase`. -/
def erase (ctx : RemoteContext) (reqid : reqid_t) : RemoteContext :=
  { ctx with states := ctx.states.filter fun st => st.reqid ≠ reqid }

/-- `states.emplace` of a state whose key is new; a map keeps the order of its keys. -/
def insert (ctx : RemoteContext) (st : InterpState) : RemoteContext :=
  { ctx with states := ctx.states.orderedInsert (fun a b => a.reqid ≤ b.reqid) st }

/-- The steps of the interpreter change the state where it is. -/
def evaluate (ctx : RemoteContext) (reqid : reqid_t) (ev : Evaluation) : RemoteContext :=
  { ctx with
    states := ctx.states.map fun st => if st.reqid = reqid then (runSteps ev.steps st).2 else st }

/-- `sendRsp` to the peer of the state. -/
def sendRsp (ctx : RemoteContext) (st : InterpState) : RemoteContext :=
  { ctx with answered := st.request :: ctx.answered }

/-- Answer, erase the state and forget it, unless sending throws. -/
def finish (ctx : RemoteContext) (st : InterpState) (sends : Bool) : RemoteContext :=
  if sends then { (ctx.sendRsp st).erase st.reqid with s := none } else ctx

/-- `interpret`. -/
def interpret (ctx : RemoteContext) (st : InterpState) (ev : Evaluation) : RemoteContext :=
  let ctx := { ctx.evaluate st.reqid ev with s := some st.addr }
  match (runSteps ev.steps st).1 with
  | .waits => ctx
  | .raised => ctx.finish st ev.sends
  | .finished =>
    if ev.sigint then ctx.finish st ev.sends
    else if ev.silent then ctx.finish st ev.sends
    else
      match ev.last with
      | .missing => ctx
      | .future => ctx
      | .value true => ctx.finish st ev.sends
      | .value false =>
        -- the answer says so, and the state stays
        if ev.sends then ctx.sendRsp st else ctx

/-- `readReqData`; a new state is made at `addr`. -/
def readReqData (ctx : RemoteContext) (peerid : conn_id_t) (reqid sourceid : reqid_t)
    (now addr : Nat) (read : ReqRead) (ev : Evaluation) : RemoteContext :=
  let requests :=
    if reqid ∈ ctx.requests.map ReqState.reqid then ctx.requests
    else ctx.requests ++ [⟨reqid, sourceid, now⟩]
  let rest := requests.filter fun req => req.reqid ≠ reqid
  match read with
  | .more => { ctx with requests := requests }
  | .invalid => { ctx with requests := rest }
  | .unbound => { ctx with requests := requests }
  | .complete =>
    let ctx' := { ctx with requests := rest, received := ctx.received + 1 }
    match ctx.find reqid with
    -- nothing is made where there is a state already, and that one goes on
    | some st => ctx'.interpret st ev
    | none =>
      let st := ⟨addr, reqid, sourceid, peerid, [], ctx.received⟩
      (ctx'.insert st).interpret st ev

/-- `readRspData`. -/
def readRspData (ctx : RemoteContext) (reqid sourceid : reqid_t) (read : RspRead)
    (ev : Evaluation) : RemoteContext :=
  match ctx.find sourceid with
  | none => ctx
  | some st =>
    if reqid ∈ st.responses.map Prod.fst then
      match read with
      | .more | .invalid => ctx
      | .complete => ctx.interpret st ev
    else ctx.erase sourceid

/-- The loop of `gc_states` over the states left; a response is sent for the one that `s`
points to, and where that throws the rest is left. -/
def gcLoop (now ttl : Nat) (sends : Bool) :
    List InterpState → Option Nat → List Nat → List InterpState × Option Nat × List Nat
  | [], s, answered => ([], s, answered)
  | st :: sts, s, answered =>
    if st.expired now ttl then
      if s = some st.addr then
        if sends then gcLoop now ttl sends sts none (st.request :: answered)
        else (st :: sts, s, answered)
      else gcLoop now ttl sends sts s answered
    else
      let r := gcLoop now ttl sends sts s answered
      (st :: r.1, r.2)

def gc_states (ctx : RemoteContext) (now ttl : Nat) (sends : Bool) : RemoteContext :=
  let r := gcLoop now ttl sends ctx.states ctx.s ctx.answered
  { ctx with states := r.1, s := r.2.1, answered := r.2.2 }

def gc_requests (ctx : RemoteContext) (now ttl : Nat) : RemoteContext :=
  { ctx with requests := ctx.requests.filter fun req => ¬ttl < now - req.timestamp }

def reset (ctx : RemoteContext) : RemoteContext :=
  { ctx with requests := [], states := [], s := none }

/-- What happens to a context. -/
inductive Event where
  | req (peerid : conn_id_t) (reqid sourceid : reqid_t) (now addr : Nat) (read : ReqRead)
      (ev : Evaluation)
  | rsp (reqid sourceid : reqid_t) (read : RspRead) (ev : Evaluation)
  | gc (now inreqttl inrspttl : Nat) (sends : Bool)
  | reset

def step (e : Event) (ctx : RemoteContext) : Next RemoteContext :=
  match e with
  | .req peerid reqid sourceid now addr read ev =>
    -- no state is made where another one is
    if addr ∈ ctx.states.map InterpState.addr then .blocked
    else .goes (ctx.readReqData peerid reqid sourceid now addr read ev)
  | .rsp reqid sourceid read ev => .goes (ctx.readRspData reqid sourceid read ev)
  | .gc now inreqttl inrspttl sends =>
    .goes ((ctx.gc_requests now inreqttl).gc_states now inrspttl sends)
  | .reset => .goes ctx.reset

def init : RemoteContext := {
  requests := []
  states := []
  s := none
  received := 0
  answered := [] }

/-- The state that an event evaluates, where it evaluates one. -/
def evaluated (e : Event) (ctx : RemoteContext) : Option (InterpState × Evaluation) :=
  match e with
  | .req peerid reqid sourceid _ addr .complete ev =>
    some ((ctx.find reqid).getD ⟨addr, reqid, sourceid, peerid, [], ctx.received⟩, ev)
  | .rsp reqid sourceid .complete ev =>
    match ctx.find sourceid with
    | some st => if reqid ∈ st.responses.map Prod.fst then some (st, ev) else none
    | none => none
  | _ => none

/-- The event ends no evaluation in a value that cannot be sent. -/
def Transmits (e : Event) (ctx : RemoteContext) : Prop :=
  ∀ x ∈ evaluated e ctx, x.2.refused x.1 = false

instance (e : Event) (ctx : RemoteContext) : Decidable (Transmits e ctx) :=
  inferInstanceAs (Decidable (∀ x ∈ evaluated e ctx, _))

/-! ## What is owed and what is paid -/

/-- The requests answered and those that have a state. -/
def ledger (ctx : RemoteContext) : List Nat :=
  ctx.answered ++ ctx.states.map InterpState.request

/-- No request is on the ledger twice, and only those received are on it. -/
structure Balanced (ctx : RemoteContext) : Prop where
  nodup : ctx.ledger.Nodup
  received : ∀ t ∈ ctx.ledger, t < ctx.received

variable {ctx ctx' : RemoteContext} {st : InterpState} {ev : Evaluation} {reqid : reqid_t}

theorem Balanced.of_sublist (h : Balanced ctx) (hsub : ctx'.ledger.Sublist ctx.ledger)
    (hrec : ctx.received ≤ ctx'.received) : Balanced ctx' :=
  ⟨h.nodup.sublist hsub, fun t ht => (h.received t (hsub.subset ht)).trans_le hrec⟩

theorem Balanced.once (h : Balanced ctx) : ctx.answered.Nodup :=
  (List.nodup_append.1 h.nodup).1

theorem Balanced.gone (h : Balanced ctx) : ∀ x ∈ ctx.states, x.request ∉ ctx.answered :=
  fun _ hst hmem => (List.nodup_append.1 h.nodup).2.2 _ hmem _ (List.mem_map_of_mem hst) rfl

theorem find_mem (h : ctx.find reqid = some st) : st ∈ ctx.states ∧ st.reqid = reqid :=
  ⟨List.mem_of_find?_eq_some h, by simpa using List.find?_some h⟩

@[simp] theorem evaluate_ledger : (ctx.evaluate reqid ev).ledger = ctx.ledger := by
  rw [ledger, ledger, evaluate, List.map_map]
  congr 1
  refine List.map_congr_left fun _ _ => ?_
  simp only [Function.comp]
  split <;> simp

theorem erase_balanced (h : Balanced ctx) : Balanced (ctx.erase reqid) :=
  h.of_sublist ((List.Sublist.refl _).append (List.filter_sublist.map _)) le_rfl

/-- An answer moves a request from one side of the ledger to the other. -/
theorem answer_balanced (h : Balanced ctx) (hst : st ∈ ctx.states) :
    Balanced ((ctx.sendRsp st).erase st.reqid) := by
  have hsub : (ctx.erase st.reqid).ledger.Sublist ctx.ledger :=
    (List.Sublist.refl _).append (List.filter_sublist.map _)
  have hreq : st.request ∈ ctx.ledger := List.mem_append_right _ (List.mem_map_of_mem hst)
  have hnew : st.request ∉ (ctx.erase st.reqid).ledger := by
    intro hmem
    rcases List.mem_append.1 hmem with hans | hleft
    · exact h.gone st hst hans
    · obtain ⟨st', hst', heq⟩ := List.mem_map.1 hleft
      obtain ⟨hst', hne⟩ := List.mem_filter.1 hst'
      have : st' = st :=
        List.inj_on_of_nodup_map (List.nodup_append.1 h.nodup).2.1 hst' hst heq
      simp [this] at hne
  constructor
  · exact List.nodup_cons.2 ⟨hnew, h.nodup.sublist hsub⟩
  · intro t ht
    rcases List.mem_cons.1 ht with rfl | ht
    · exact h.received _ hreq
    · exact h.received t (hsub.subset ht)

theorem finish_balanced {sends : Bool} (h : Balanced ctx)
    (hst : ∃ st' ∈ ctx.states, st'.reqid = st.reqid ∧ st'.request = st.request) :
    Balanced (ctx.finish st sends) := by
  obtain ⟨st', hst', hid, hreq⟩ := hst
  rw [finish]
  split
  · have hans : (ctx.sendRsp st).erase st.reqid = (ctx.sendRsp st').erase st'.reqid := by
      rw [sendRsp, sendRsp, hid, hreq]
    have hbal := answer_balanced h hst'
    rw [hans]
    exact ⟨hbal.nodup, hbal.received⟩
  · exact h

/-- An evaluation keeps the balance when its end is not refused. -/
theorem interpret_balanced (h : Balanced ctx) (hst : st ∈ ctx.states) (hev : ev.refused st = false) :
    Balanced (ctx.interpret st ev) := by
  have hled : (ctx.evaluate st.reqid ev).ledger = ctx.ledger := evaluate_ledger
  have hbal : Balanced { ctx.evaluate st.reqid ev with s := some st.addr } :=
    ⟨hled.symm ▸ h.nodup, hled.symm ▸ h.received⟩
  have hfin : ∀ sends, Balanced (finish { ctx.evaluate st.reqid ev with s := some st.addr } st sends) :=
    fun _ => finish_balanced hbal ⟨(runSteps ev.steps st).2,
      List.mem_map.2 ⟨st, hst, if_pos rfl⟩, runSteps_reqid _ _, runSteps_request _ _⟩
  rw [interpret]
  split
  · exact hbal
  · exact hfin _
  · next hend =>
      split
      · exact hfin _
      · next hint =>
          split
          · exact hfin _
          · next hsil =>
              split
              · exact hbal
              · exact hbal
              · exact hfin _
              · next hlast =>
                  have hsends : ev.sends = false := by
                    simpa [Evaluation.refused, hend, hint, hsil, hlast] using hev
                  rw [hsends]
                  exact hbal

/-- A refused end answers and leaves the state. -/
theorem interpret_refused (hst : st ∈ ctx.states) (hev : ev.refused st = true) :
    ∃ st' ∈ (ctx.interpret st ev).states, st'.request ∈ (ctx.interpret st ev).answered := by
  simp only [Evaluation.refused, Bool.and_eq_true, decide_eq_true_eq, Bool.not_eq_true'] at hev
  obtain ⟨⟨⟨⟨hend, hint⟩, hsil⟩, hlast⟩, hsends⟩ := hev
  refine ⟨(runSteps ev.steps st).2, ?_, ?_⟩
  · simp only [interpret, hend, hint, hsil, hlast, hsends]
    exact List.mem_map.2 ⟨st, hst, if_pos rfl⟩
  · simp [interpret, hend, hint, hsil, hlast, hsends, sendRsp]

/-- A new state is put on the ledger for a request just received. -/
theorem insert_balanced (h : Balanced ctx) (hreq : st.request = ctx.received) :
    Balanced (insert { ctx with received := ctx.received + 1 } st) := by
  have hperm : (insert { ctx with received := ctx.received + 1 } st).ledger.Perm
      (st.request :: ctx.ledger) := by
    refine (List.Perm.append_left _ ((List.perm_orderedInsert _ _ _).map _)).trans ?_
    exact List.perm_middle
  have hnew : st.request ∉ ctx.ledger := by
    intro hmem
    have := h.received _ hmem
    omega
  constructor
  · exact hperm.nodup_iff.2 (List.nodup_cons.2 ⟨hnew, h.nodup⟩)
  · intro t ht
    show t < ctx.received + 1
    rcases List.mem_cons.1 (hperm.subset ht) with rfl | ht
    · omega
    · have := h.received t ht
      omega

/-- Without a state that `s` points to, collecting only takes states away. -/
theorem gcLoop_none (now ttl : Nat) (sends : Bool) (sts : List InterpState) (answered : List Nat) :
    (gcLoop now ttl sends sts none answered).1.Sublist sts ∧
      (gcLoop now ttl sends sts none answered).2.2 = answered := by
  induction sts with
  | nil => exact ⟨.slnil, rfl⟩
  | cons st sts ih =>
      rw [gcLoop]
      split
      · rw [if_neg (by simp)]
        exact ⟨ih.1.cons _, ih.2⟩
      · exact ⟨ih.1.cons_cons _, ih.2⟩

/-- Collecting takes states away, and one of those it takes away it may answer. -/
theorem gcLoop_spec (now ttl : Nat) (sends : Bool) (sts : List InterpState) (s : Option Nat)
    (answered : List Nat) :
    let r := gcLoop now ttl sends sts s answered
    r.1.Sublist sts ∧ (r.2.2 = answered ∨
      ∃ st, (st :: r.1).Subperm sts ∧ r.2.2 = st.request :: answered) := by
  induction sts with
  | nil => exact ⟨.slnil, .inl rfl⟩
  | cons st sts ih =>
      obtain ⟨hsub, hans⟩ := ih
      rw [gcLoop]
      split
      · split
        · split
          · obtain ⟨hsub', hans'⟩ := gcLoop_none now ttl sends sts (st.request :: answered)
            exact ⟨hsub'.cons _, .inr ⟨st, (hsub'.cons_cons st).subperm, hans'⟩⟩
          · exact ⟨.refl _, .inl rfl⟩
        · refine ⟨hsub.cons _, hans.imp_right ?_⟩
          rintro ⟨st', hperm, heq⟩
          exact ⟨st', hperm.trans (List.sublist_cons_self _ _).subperm, heq⟩
      · refine ⟨hsub.cons_cons _, hans.imp_right ?_⟩
        rintro ⟨st', hperm, heq⟩
        refine ⟨st', ?_, heq⟩
        exact (List.Perm.swap _ _ _).subperm.trans ((List.subperm_cons st).2 hperm)

theorem gc_states_balanced {now ttl : Nat} {sends : Bool} (h : Balanced ctx) :
    Balanced (ctx.gc_states now ttl sends) := by
  obtain ⟨hsub, heq | ⟨st, hperm, heq⟩⟩ := gcLoop_spec now ttl sends ctx.states ctx.s ctx.answered
  · refine h.of_sublist ?_ le_rfl
    rw [ledger, gc_states, heq]
    exact (List.Sublist.refl _).append (hsub.map _)
  · obtain ⟨l, hl, hsub'⟩ := hperm
    have hled : (ctx.gc_states now ttl sends).ledger.Perm
        (ctx.answered ++ l.map InterpState.request) := by
      rw [ledger, gc_states, heq]
      exact List.perm_middle.symm.trans ((hl.symm.map _).append_left _)
    have hmid : (ctx.answered ++ l.map InterpState.request).Sublist ctx.ledger :=
      (List.Sublist.refl _).append (hsub'.map _)
    exact ⟨hled.nodup_iff.2 (h.nodup.sublist hmid),
      fun t ht => h.received t (hmid.subset (hled.subset ht))⟩

/-! ## Steps and runs -/

/-- An event that evaluates a state evaluates it in a context in balance. -/
theorem step_evaluated {e : Event} (h : Balanced ctx) (hgo : step e ctx = .goes ctx')
    (hev : evaluated e ctx = some (st, ev)) :
    ∃ c, Balanced c ∧ st ∈ c.states ∧ ctx' = c.interpret st ev := by
  cases e with
  | req peerid reqid sourceid now addr read ev' =>
      cases read with
      | complete =>
          simp only [evaluated, Option.some.injEq, Prod.mk.injEq] at hev
          obtain ⟨hst, rfl⟩ := hev
          rw [step] at hgo
          split at hgo
          · cases hgo
          · cases hgo
            cases hfind : ctx.find reqid with
            | some st' =>
                obtain rfl : st' = st := by rw [← hst, hfind, Option.getD_some]
                simp only [readReqData, hfind]
                refine ⟨_, ?_, ?_, rfl⟩
                · exact h.of_sublist (.refl _) (Nat.le_succ _)
                · exact (find_mem hfind).1
            | none =>
                rw [hfind, Option.getD_none] at hst
                subst hst
                simp only [readReqData, hfind]
                refine ⟨_, ?_, ?_, rfl⟩
                · exact @insert_balanced { ctx with requests := _ } _ ⟨h.nodup, h.received⟩ rfl
                · exact (List.mem_orderedInsert _).2 (.inl rfl)
      | more => cases hev
      | invalid => cases hev
      | unbound => cases hev
  | rsp reqid sourceid read ev' =>
      cases read with
      | complete =>
          cases hfind : ctx.find sourceid with
          | none => simp [evaluated, hfind] at hev
          | some st' =>
              simp only [evaluated, hfind, Option.ite_none_right_eq_some, Option.some.injEq,
                Prod.mk.injEq] at hev
              obtain ⟨hmem, rfl, rfl⟩ := hev
              cases hgo
              refine ⟨ctx, h, (find_mem hfind).1, ?_⟩
              simp only [readRspData, hfind, if_pos hmem]
      | more => cases hev
      | invalid => cases hev
  | gc now inreqttl inrspttl sends => cases hev
  | reset => cases hev

/-- The other events keep the balance. -/
theorem step_unevaluated {e : Event} (h : Balanced ctx) (hgo : step e ctx = .goes ctx')
    (hev : evaluated e ctx = none) : Balanced ctx' := by
  cases e with
  | req peerid reqid sourceid now addr read ev' =>
      rw [step] at hgo
      split at hgo
      · cases hgo
      · cases hgo
        cases read with
        | complete => cases hev
        | more => exact ⟨h.nodup, h.received⟩
        | invalid => exact ⟨h.nodup, h.received⟩
        | unbound => exact ⟨h.nodup, h.received⟩
  | rsp reqid sourceid read ev' =>
      cases hgo
      rw [readRspData]
      split
      · exact h
      · next st hfind =>
          split
          · next hmem =>
              cases read with
              | complete => simp [evaluated, hfind, hmem] at hev
              | more => exact h
              | invalid => exact h
          · exact erase_balanced h
  | gc now inreqttl inrspttl sends =>
      cases hgo
      exact gc_states_balanced ⟨h.nodup, h.received⟩
  | reset =>
      cases hgo
      exact h.of_sublist ((List.Sublist.refl _).append (List.nil_sublist _)) le_rfl

theorem step_balanced {e : Event} (h : Balanced ctx) (hev : Transmits e ctx)
    (hgo : step e ctx = .goes ctx') : Balanced ctx' := by
  cases hx : evaluated e ctx with
  | none => exact step_unevaluated h hgo hx
  | some x =>
      obtain ⟨c, hc, hst, rfl⟩ := step_evaluated h hgo hx
      exact interpret_balanced hc hst (hev _ hx)

/-- The step at which an answered request keeps its state is the one that is refused. -/
theorem step_gone_iff {e : Event} (h : Balanced ctx) (hgo : step e ctx = .goes ctx') :
    (∀ x ∈ ctx'.states, x.request ∉ ctx'.answered) ↔ Transmits e ctx := by
  constructor
  · intro hgone x hx
    obtain ⟨c, hc, hst, rfl⟩ := step_evaluated h hgo hx
    by_contra hev
    obtain ⟨st', hst', hmem⟩ := interpret_refused hst (Bool.not_eq_false _ ▸ hev)
    exact hgone st' hst' hmem
  · intro hev
    exact (step_balanced h hev hgo).gone

theorem init_balanced : Balanced init := ⟨.nil, by rintro _ ⟨⟩⟩

theorem run_balanced (hr : Run step Transmits init ctx) : Balanced ctx := by
  refine hr.invariant init_balanced (fun e s s' h hev hgo => step_balanced h hev hgo) ?_
  intro e s _ _ hwild
  cases e with
  | req => rw [step] at hwild; split at hwild <;> cases hwild
  | rsp => cases hwild
  | gc => cases hwild
  | reset => cases hwild

/-- A request that is answered is answered once, and has no state any more, at any time. -/
theorem answered_once_and_forgotten (hr : Run step Transmits init ctx) :
    ctx.answered.Nodup ∧ ∀ x ∈ ctx.states, x.request ∉ ctx.answered :=
  ⟨(run_balanced hr).once, (run_balanced hr).gone⟩

/-- An evaluation that stops at once with a value. -/
def returns (transmissible : Bool) : Evaluation := {
  steps := [⟨[], .goes⟩]
  sigint := false
  silent := false
  last := .value transmissible
  sends := true }

/-- An evaluation that sends a request and waits for its response. -/
def asks (reqid : reqid_t) (now : Nat) : Evaluation :=
  { returns true with steps := [⟨[(reqid, now)], .goes⟩, ⟨[], .future⟩] }

/-- A request that waits for a response and is then answered, and one that waits too long. -/
theorem answered_once_and_forgotten_two :
    let ctx : RemoteContext := ⟨[], [], none, 2, [1, 0]⟩
    ctx.answered.Nodup ∧ ∀ x ∈ ctx.states, x.request ∉ ctx.answered := by
  intro ctx
  refine answered_once_and_forgotten (@Run.of_exec _ _ _ _ _ _ _ [.req 3 7 2 10 100 .complete (asks 50 10),
    .rsp 50 7 .more (returns true), .rsp 50 7 .complete (returns true),
    .req 3 8 2 20 100 .complete (asks 51 20), .gc 99 30 30 true] ?_)
  decide

/-- A state whose answer was refused stays, and is answered again when it is collected. -/
theorem answered_twice :
    (∃ ctx, Run step (fun _ _ => True) init ctx ∧
      ∃ x ∈ ctx.states, x.request ∈ ctx.answered) ∧
    ∃ ctx, Run step (fun _ _ => True) init ctx ∧ ¬ctx.answered.Nodup := by
  refine ⟨⟨⟨[], [⟨100, 7, 2, 3, [], 0⟩], some 100, 1, [0]⟩, ?_, by decide⟩,
    ⟨⟨[], [], none, 1, [0, 0]⟩, ?_, by decide⟩⟩
  · exact @Run.of_exec _ _ _ _ _ _ _ [.req 3 7 2 10 100 .complete (returns false)] (by decide)
  · exact @Run.of_exec _ _ _ _ _ _ _ [.req 3 7 2 10 100 .complete (asks 50 10),
      .rsp 50 7 .complete (returns false), .gc 99 30 30 true] (by decide)

end RemoteContext

end Ztsdb.Net
