import Mathlib
import Ztsdb.Net.RemoteContext

/-!
# Where a response goes

A request that an evaluation sends names the connection it goes over, a number of its own
and the number of the evaluation's state. The response comes back over that connection with
the two numbers. The handler hands it to the context that opened the connection, and this
one looks for the state and, in the state, for the request.

The context that opened a connection need not be the one that the request comes from, the
numbers of a remote context's states are its peer's, and the handler does not forget a
context that has gone. In a run in which every request goes over a connection of its own
context, no number is used again while a response to the state it named can come, and no
context goes before its connections, a response changes nothing but the state of the
evaluation that asked for it.
-/

namespace Ztsdb.Net

open Ztsdb.Lib

/-- The contexts, in the order they are made. -/
abbrev ctx_t := Nat

/-- `InterpCtxLocal`, `InterpCtxRemote` and `InterpCtxTimer`. -/
inductive CtxKind where
  | console
  | remote
  | timer
  deriving DecidableEq

/-- A state in a context: which evaluation it is, the requests it has sent, and those whose
responses it was handed, chunk by chunk. -/
structure EvalState where
  id : Nat
  responses : List reqid_t
  got : List reqid_t
  deriving DecidableEq

/-- A request sent: its numbers, its connection, and the context and evaluation it is from. -/
structure Sent where
  reqid : reqid_t
  sourceid : reqid_t
  conn : conn_id_t
  ctx : ctx_t
  id : Nat
  deriving DecidableEq

/-- The handler and its contexts. The connections are those that there have been. -/
structure Routing where
  contexts : ctx_t → Option CtxKind
  states : ctx_t → reqid_t → Option EvalState
  reqContexts : conn_id_t → Option ctx_t
  rspContexts : conn_id_t → Option ctx_t
  sent : List Sent
  conns : Finset conn_id_t
  ctxs : Nat
  evals : Nat
  nextId : reqid_t

namespace Routing

/-- What happens in the process. -/
inductive Event where
  /-- A connection comes in. -/
  | up (conn : conn_id_t)
  /-- A connection goes. -/
  | down (conn : conn_id_t)
  | addTimer
  | removeTimer (c : ctx_t)
  /-- A request is complete. -/
  | request (c : ctx_t) (reqid : reqid_t)
  /-- A line is typed or a timer runs out. -/
  | process (c : ctx_t)
  | connect (c : ctx_t) (conn : conn_id_t)
  /-- A state sends a request, or fails to. -/
  | sendReq (c : ctx_t) (k : reqid_t) (conn : conn_id_t) (sends : Bool)
  /-- The evaluation of a state is over, or its state is too old. -/
  | finish (c : ctx_t) (k : reqid_t)
  | reset (c : ctx_t)
  /-- A chunk of the response to a request. -/
  | respond (r : Sent)
  deriving DecidableEq

def setState (s : Routing) (c : ctx_t) (k : reqid_t) (st : Option EvalState) : Routing :=
  { s with states := Function.update s.states c (Function.update (s.states c) k st) }

/-- A context that goes takes its states with it. -/
def destroy (s : Routing) (c : ctx_t) : Routing :=
  { s with
    contexts := Function.update s.contexts c none
    states := Function.update s.states c fun _ => none }

/-- A new context. -/
def make (s : Routing) (kind : CtxKind) : Routing :=
  { s with contexts := Function.update s.contexts s.ctxs (some kind), ctxs := s.ctxs + 1 }

/-- `states.emplace` of a new state. -/
def start (s : Routing) (c : ctx_t) (k : reqid_t) : Routing :=
  if (s.states c k).isSome then s
  else { s.setState c k (some ⟨s.evals, [], []⟩) with evals := s.evals + 1 }

/-- `readRspData`. -/
def readRspData (s : Routing) (c : ctx_t) (reqid sourceid : reqid_t) : Routing :=
  match s.states c sourceid with
  | none => s
  | some st =>
    if reqid ∈ st.responses then s.setState c sourceid (some { st with got := st.got ++ [reqid] })
    else s.setState c sourceid none

/-- The handler dispatches a response. -/
def deliver (s : Routing) (r : Sent) : Next Routing :=
  match s.rspContexts r.conn with
  | none => .goes s
  | some c =>
    -- the map holds a reference, and what it refers to may be gone
    if (s.contexts c).isSome then .goes (s.readRspData c r.reqid r.sourceid) else .wild

def step (e : Event) (s : Routing) : Next Routing :=
  match e with
  | .up conn =>
    if conn ∈ s.conns then .blocked
    else .goes { s.make .remote with
      reqContexts := Function.update s.reqContexts conn (some s.ctxs)
      conns := insert conn s.conns }
  | .down conn =>
    let s' := { s with
      rspContexts := Function.update s.rspContexts conn none
      reqContexts := Function.update s.reqContexts conn none }
    match s.reqContexts conn with
    | none => .goes s'
    | some c => .goes (s'.destroy c)
  | .addTimer => .goes (s.make .timer)
  | .removeTimer c => if s.contexts c = some .timer then .goes (s.destroy c) else .blocked
  | .request c reqid => if s.contexts c = some .remote then .goes (s.start c reqid) else .blocked
  | .process c =>
    match s.contexts c with
    | none | some .remote => .blocked
    | some _ => .goes { s.start c s.nextId with nextId := s.nextId + 1 }
  | .connect c conn =>
    if conn ∈ s.conns ∨ s.contexts c = none then .blocked
    else .goes { s with
      rspContexts := Function.update s.rspContexts conn (some c)
      conns := insert conn s.conns }
  | .sendReq c k conn sends =>
    match s.states c k with
    | none => .blocked
    | some st =>
      if sends = true ∧ conn ∉ s.conns then .blocked
      else .goes { s.setState c k (some { st with responses := st.responses ++ [s.nextId] }) with
        sent := if sends then ⟨s.nextId, k, conn, c, st.id⟩ :: s.sent else s.sent
        nextId := s.nextId + 1 }
  | .finish c k => .goes (s.setState c k none)
  | .reset c => .goes { s with states := Function.update s.states c fun _ => none }
  | .respond r => if r ∈ s.sent then s.deliver r else .blocked

/-- The process before anything happens: its local context. -/
def init : Routing := {
  contexts := Function.update (fun _ => none) 0 (some .console)
  states := fun _ _ => none
  reqContexts := fun _ => none
  rspContexts := fun _ => none
  sent := []
  conns := ∅
  ctxs := 1
  evals := 0
  nextId := 1 }

/-- A request goes over a connection of its own context. A state takes a number only when
no response to another of that number can come. A context goes when its connections have. -/
def Own (e : Event) (s : Routing) : Prop :=
  match e with
  | .sendReq c _ conn sends => sends = true → ∀ c' ∈ s.rspContexts conn, c' = c
  | .request c reqid => s.states c reqid = none →
      ∀ r ∈ s.sent, r.ctx = c → r.sourceid = reqid → s.rspContexts r.conn = none
  | .down conn => ∀ c ∈ s.reqContexts conn, ∀ conn' ∈ s.conns, conn' ≠ conn →
      s.rspContexts conn' ≠ some c
  | .removeTimer c => ∀ conn ∈ s.conns, s.rspContexts conn ≠ some c
  | _ => True

instance (e : Event) (s : Routing) : Decidable (Own e s) :=
  match e with
  | .sendReq c _ conn sends =>
    inferInstanceAs (Decidable (sends = true → ∀ c' ∈ s.rspContexts conn, c' = c))
  | .request c reqid =>
    inferInstanceAs (Decidable (s.states c reqid = none →
      ∀ r ∈ s.sent, r.ctx = c → r.sourceid = reqid → s.rspContexts r.conn = none))
  | .down conn =>
    inferInstanceAs (Decidable (∀ c ∈ s.reqContexts conn, ∀ conn' ∈ s.conns, conn' ≠ conn →
      s.rspContexts conn' ≠ some c))
  | .removeTimer c =>
    inferInstanceAs (Decidable (∀ conn ∈ s.conns, s.rspContexts conn ≠ some c))
  | .up _ | .addTimer | .process _ | .connect _ _ | .finish _ _ | .reset _ | .respond _ =>
    inferInstanceAs (Decidable True)

/-! ## The invariant -/

/-- A response to the request can come to a context. -/
def Answerable (s : Routing) (r : Sent) : Prop := s.rspContexts r.conn ≠ none

structure Routed (s : Routing) : Prop where
  alive : ∀ conn c, s.rspContexts conn = some c → (s.contexts c).isSome
  opened : ∀ conn, s.rspContexts conn ≠ none → conn ∈ s.conns
  made : ∀ c, (s.contexts c).isSome → c < s.ctxs
  hosted : ∀ c k, s.states c k ≠ none → (s.contexts c).isSome
  sentCtx : ∀ r ∈ s.sent, r.ctx < s.ctxs
  sentConn : ∀ r ∈ s.sent, r.conn ∈ s.conns
  /-- The response comes to the context of the request. -/
  route : ∀ r ∈ s.sent, ∀ c, s.rspContexts r.conn = some c → c = r.ctx
  /-- What has the number of the state that asked is that state, and it knows the request. -/
  issuer : ∀ r ∈ s.sent, s.Answerable r → ∀ st, s.states r.ctx r.sourceid = some st →
    st.id = r.id ∧ r.reqid ∈ st.responses
  /-- Outside the remote contexts the numbers are the handler's own. -/
  stateNumber : ∀ c, s.contexts c ≠ some .remote → ∀ k, s.states c k ≠ none → k < s.nextId
  sentNumber : ∀ r ∈ s.sent, s.contexts r.ctx ≠ some .remote → (s.contexts r.ctx).isSome →
    r.sourceid < s.nextId

variable {s s' : Routing} {c : ctx_t} {k : reqid_t} {st : EvalState}

theorem init_routed : Routed init where
  alive := by rintro _ _ ⟨⟩
  opened := by simp [init]
  made := by
    intro c hc
    by_contra hlt
    have : c ≠ 0 := by rintro rfl; exact hlt Nat.zero_lt_one
    simp [init, this] at hc
  hosted := by simp [init]
  sentCtx := by simp [init]
  sentConn := by simp [init]
  route := by simp [init]
  issuer := by simp [init]
  stateNumber := by simp [init]
  sentNumber := by simp [init]

@[simp] theorem setState_self (s : Routing) (c : ctx_t) (k : reqid_t) (st : Option EvalState) :
    (s.setState c k st).states c k = st := by simp [setState]

theorem setState_ne {c' : ctx_t} {k' : reqid_t} (h : ¬(c' = c ∧ k' = k)) (st : Option EvalState) :
    (s.setState c k st).states c' k' = s.states c' k' := by
  rcases eq_or_ne c' c with rfl | hc
  · have hk : k' ≠ k := fun hk => h ⟨rfl, hk⟩
    simp [setState, hk]
  · simp [setState, hc]

/-- A state may be changed where the requests sent from it stay known, or taken away. -/
theorem Routed.setState (h : Routed s) {x : Option EvalState}
    (hx : ∀ st' ∈ x, ∃ st, s.states c k = some st ∧ st'.id = st.id ∧
      ∀ reqid ∈ st.responses, reqid ∈ st'.responses) : Routed (s.setState c k x) := by
  have hpre : ∀ c' k', (s.setState c k x).states c' k' ≠ none → s.states c' k' ≠ none := by
    intro c' k' hne
    by_cases heq : c' = c ∧ k' = k
    · obtain ⟨rfl, rfl⟩ := heq
      rw [setState_self] at hne
      obtain ⟨st', rfl⟩ := Option.ne_none_iff_exists'.1 hne
      obtain ⟨st, hst, -⟩ := hx st' rfl
      rw [hst]
      simp
    · rwa [setState_ne heq] at hne
  refine { h with hosted := ?_, issuer := ?_, stateNumber := ?_ }
  · exact fun c' k' hne => h.hosted c' k' (hpre c' k' hne)
  · intro r hr hans st' hst'
    by_cases heq : r.ctx = c ∧ r.sourceid = k
    · obtain ⟨rfl, rfl⟩ := heq
      rw [setState_self] at hst'
      obtain ⟨st, hst, hid, hresp⟩ := hx st' hst'
      obtain ⟨hid', hmem⟩ := h.issuer r hr hans st hst
      exact ⟨hid.trans hid', hresp _ hmem⟩
    · rw [setState_ne heq] at hst'
      exact h.issuer r hr hans st' hst'
  · exact fun c' hc' k' hne => h.stateNumber c' hc' k' (hpre c' k' hne)

/-- A context to which no response comes can go. -/
theorem Routed.destroy (h : Routed s) (hc : ∀ conn, s.rspContexts conn ≠ some c) :
    Routed (s.destroy c) := by
  have hctx : ∀ c', c' ≠ c → (s.destroy c).contexts c' = s.contexts c' :=
    fun c' hne => Function.update_of_ne hne _ _
  have hst : ∀ c', c' ≠ c → (s.destroy c).states c' = s.states c' :=
    fun c' hne => Function.update_of_ne hne _ _
  have hctx' : (s.destroy c).contexts c = none := Function.update_self _ _ _
  have hst' : ∀ k, (s.destroy c).states c k = none := fun k => by
    simp [Routing.destroy]
  refine { h with
    alive := ?_
    made := ?_
    hosted := ?_
    issuer := ?_
    stateNumber := ?_
    sentNumber := ?_ }
  · intro conn c' hconn
    rw [hctx c' (by rintro rfl; exact hc conn hconn)]
    exact h.alive conn c' hconn
  · intro c' hsome
    rcases eq_or_ne c' c with rfl | hne
    · simp [hctx'] at hsome
    · rw [hctx c' hne] at hsome
      exact h.made c' hsome
  · intro c' k hne
    rcases eq_or_ne c' c with rfl | hcne
    · exact absurd (hst' k) hne
    · rw [hst c' hcne] at hne
      rw [hctx c' hcne]
      exact h.hosted c' k hne
  · intro r hr hans st hsome
    rcases eq_or_ne r.ctx c with rfl | hcne
    · simp [hst'] at hsome
    · rw [hst r.ctx hcne] at hsome
      exact h.issuer r hr hans st hsome
  · intro c' hk k hne
    rcases eq_or_ne c' c with rfl | hcne
    · exact absurd (hst' k) hne
    · rw [hst c' hcne] at hne
      rw [hctx c' hcne] at hk
      exact h.stateNumber c' hk k hne
  · intro r hr hk hsome
    rcases eq_or_ne r.ctx c with heq | hcne
    · simp [heq, hctx'] at hsome
    · rw [hctx _ hcne] at hk hsome
      exact h.sentNumber r hr hk hsome

/-- Nothing is known of a context that is new. -/
theorem Routed.make (h : Routed s) (kind : CtxKind) : Routed (s.make kind) := by
  have hnone : s.contexts s.ctxs = none := by
    by_contra hne
    exact absurd (h.made s.ctxs (Option.isSome_iff_ne_none.2 hne)) (lt_irrefl _)
  have hctx : ∀ c', (s.contexts c').isSome → (s.make kind).contexts c' = s.contexts c' := by
    intro c' hsome
    refine Function.update_of_ne ?_ _ _
    rintro rfl
    simp [hnone] at hsome
  have hctx' : ∀ c', c' ≠ s.ctxs → (s.make kind).contexts c' = s.contexts c' :=
    fun c' hne => Function.update_of_ne hne _ _
  refine { h with
    alive := ?_
    made := ?_
    hosted := ?_
    sentCtx := ?_
    stateNumber := ?_
    sentNumber := ?_ }
  · intro conn c' hconn
    rw [hctx c' (h.alive conn c' hconn)]
    exact h.alive conn c' hconn
  · intro c' hsome
    rcases eq_or_ne c' s.ctxs with rfl | hne
    · exact Nat.lt_succ_self _
    · rw [hctx' c' hne] at hsome
      exact Nat.lt_succ_of_lt (h.made c' hsome)
  · intro c' k hne
    rw [hctx c' (h.hosted c' k hne)]
    exact h.hosted c' k hne
  · intro r hr
    exact (h.sentCtx r hr).trans (Nat.lt_succ_self _)
  · intro c' hk k hne
    rw [hctx c' (h.hosted c' k hne)] at hk
    exact h.stateNumber c' hk k hne
  · intro r hr hk hsome
    have hne := (h.sentCtx r hr).ne
    rw [hctx' _ hne] at hk hsome
    exact h.sentNumber r hr hk hsome

/-- A new state takes a number that no response can come for. -/
theorem Routed.start (h : Routed s) (hc : (s.contexts c).isSome)
    (hkind : s.contexts c ≠ some .remote → k < s.nextId)
    (hfree : s.states c k = none → ∀ r ∈ s.sent, r.ctx = c → r.sourceid = k → ¬s.Answerable r) :
    Routed (s.start c k) := by
  rw [Routing.start]
  split
  · exact h
  · next hnew =>
      have hnone : s.states c k = none := by simpa using hnew
      refine { h with hosted := ?_, issuer := ?_, stateNumber := ?_ }
      · intro c' k' hne
        by_cases heq : c' = c ∧ k' = k
        · rw [heq.1]
          exact hc
        · refine h.hosted c' k' ?_
          rwa [← setState_ne heq]
      · intro r hr hans st hst
        by_cases heq : r.ctx = c ∧ r.sourceid = k
        · exact absurd hans (hfree hnone r hr heq.1 heq.2)
        · refine h.issuer r hr hans st ?_
          rwa [← setState_ne heq]
      · intro c' hk k' hne
        by_cases heq : c' = c ∧ k' = k
        · obtain ⟨rfl, rfl⟩ := heq
          exact hkind hk
        · refine h.stateNumber c' hk k' ?_
          rwa [← setState_ne heq]

theorem Routed.up {conn : conn_id_t} (h : Routed s) :
    Routed { s.make .remote with
      reqContexts := Function.update s.reqContexts conn (some s.ctxs)
      conns := insert conn s.conns } := by
  have hmake := h.make .remote
  exact { hmake with
    opened := fun conn' hne => Finset.mem_insert_of_mem (hmake.opened conn' hne)
    sentConn := fun r hr => Finset.mem_insert_of_mem (hmake.sentConn r hr) }

/-- A connection that goes answers no request any more. -/
theorem Routed.drop {conn : conn_id_t} (h : Routed s) (f : conn_id_t → Option ctx_t) :
    Routed { s with
      rspContexts := Function.update s.rspContexts conn none
      reqContexts := f } := by
  have hmap : ∀ conn' c, Function.update s.rspContexts conn none conn' = some c →
      s.rspContexts conn' = some c := by
    intro conn' c hsome
    rcases eq_or_ne conn' conn with rfl | hne
    · simp at hsome
    · rwa [Function.update_of_ne hne] at hsome
  have hans : ∀ conn', Function.update s.rspContexts conn none conn' ≠ none →
      s.rspContexts conn' ≠ none := by
    intro conn' hne
    obtain ⟨c, hc⟩ := Option.ne_none_iff_exists'.1 hne
    rw [hmap conn' c hc]
    simp
  exact { h with
    alive := fun conn' c hc => h.alive conn' c (hmap conn' c hc)
    opened := fun conn' hne => h.opened conn' (hans conn' hne)
    route := fun r hr c hc => h.route r hr c (hmap _ c hc)
    issuer := fun r hr hne => h.issuer r hr (hans _ hne) }

/-- No request has gone over a connection that is new. -/
theorem Routed.connect {conn : conn_id_t} (h : Routed s) (hnew : conn ∉ s.conns)
    (hc : (s.contexts c).isSome) :
    Routed { s with
      rspContexts := Function.update s.rspContexts conn (some c)
      conns := insert conn s.conns } := by
  have hsent : ∀ r ∈ s.sent, Function.update s.rspContexts conn (some c) r.conn =
      s.rspContexts r.conn := by
    intro r hr
    refine Function.update_of_ne ?_ _ _
    rintro rfl
    exact hnew (h.sentConn r hr)
  refine { h with
    alive := ?_
    opened := ?_
    sentConn := ?_
    route := ?_
    issuer := ?_ }
  · intro conn' c' hsome
    rcases eq_or_ne conn' conn with rfl | hne
    · simp only [Function.update_self, Option.some.injEq] at hsome
      exact hsome ▸ hc
    · simp only [Function.update_of_ne hne] at hsome
      exact h.alive conn' c' hsome
  · intro conn' hne
    rcases eq_or_ne conn' conn with rfl | hcne
    · exact Finset.mem_insert_self _ _
    · simp only [Function.update_of_ne hcne] at hne
      exact Finset.mem_insert_of_mem (h.opened conn' hne)
  · exact fun r hr => Finset.mem_insert_of_mem (h.sentConn r hr)
  · intro r hr c' hsome
    exact h.route r hr c' (hsent r hr ▸ hsome)
  · intro r hr hans
    refine h.issuer r hr ?_
    rw [Answerable, ← hsent r hr]
    exact hans

/-- A number given out is used up. -/
theorem Routed.nextId (h : Routed s) : Routed { s with nextId := s.nextId + 1 } :=
  { h with
    stateNumber := fun c hc k hne => (h.stateNumber c hc k hne).trans (Nat.lt_succ_self _)
    sentNumber := fun r hr hk hsome => (h.sentNumber r hr hk hsome).trans (Nat.lt_succ_self _) }

/-- A request goes on the list when its response will come to the context of its state. -/
theorem Routed.send {r : Sent} (h : Routed s) (hconn : r.conn ∈ s.conns)
    (hst : s.states r.ctx r.sourceid = some st) (hid : st.id = r.id)
    (hresp : r.reqid ∈ st.responses) (hroute : ∀ c ∈ s.rspContexts r.conn, c = r.ctx) :
    Routed { s with sent := r :: s.sent } := by
  have hne : s.states r.ctx r.sourceid ≠ none := by simp [hst]
  refine { h with
    sentCtx := ?_
    sentConn := ?_
    route := ?_
    issuer := ?_
    sentNumber := ?_ }
  · exact List.forall_mem_cons.2 ⟨h.made _ (h.hosted _ _ hne), h.sentCtx⟩
  · exact List.forall_mem_cons.2 ⟨hconn, h.sentConn⟩
  · exact List.forall_mem_cons.2 ⟨hroute, h.route⟩
  · refine List.forall_mem_cons.2 ⟨fun _ st' hst' => ?_, h.issuer⟩
    obtain rfl : st = st' := Option.some.inj (hst.symm.trans hst')
    exact ⟨hid, hresp⟩
  · exact List.forall_mem_cons.2 ⟨fun hk _ => h.stateNumber _ hk _ hne, h.sentNumber⟩

/-! ## Steps and runs -/

/-- What a response changes is the state that asked for it. -/
def ToIssuer (r : Sent) (s s' : Routing) : Prop :=
  s' = { s with states := s'.states } ∧
    ∀ c k, s'.states c k ≠ s.states c k →
      c = r.ctx ∧ k = r.sourceid ∧ ∃ st, s.states c k = some st ∧ st.id = r.id ∧
        r.reqid ∈ st.responses ∧ s'.states c k = some { st with got := st.got ++ [r.reqid] }

theorem Routed.deliver {r : Sent} (h : Routed s) (hr : r ∈ s.sent) :
    ∃ s', s.deliver r = .goes s' ∧ Routed s' ∧ ToIssuer r s s' := by
  rw [Routing.deliver]
  cases hmap : s.rspContexts r.conn with
  | none => exact ⟨s, rfl, h, rfl, fun _ _ hne => absurd rfl hne⟩
  | some c =>
      obtain rfl := h.route r hr c hmap
      simp only [h.alive _ _ hmap, if_true]
      refine ⟨_, rfl, ?_⟩
      rw [readRspData]
      cases hst : s.states r.ctx r.sourceid with
      | none => exact ⟨h, rfl, fun _ _ hne => absurd rfl hne⟩
      | some st =>
          obtain ⟨hid, hresp⟩ := h.issuer r hr (by simp [Answerable, hmap]) st hst
          simp only [if_pos hresp]
          refine ⟨h.setState ?_, rfl, ?_⟩
          · rintro _ ⟨⟩
            exact ⟨st, hst, rfl, fun _ hmem => hmem⟩
          · intro c k hne
            by_cases heq : c = r.ctx ∧ k = r.sourceid
            · obtain ⟨rfl, rfl⟩ := heq
              exact ⟨rfl, rfl, st, hst, hid, hresp, setState_self _ _ _ _⟩
            · exact absurd (setState_ne heq _) hne

/-- A connection that is not among those there have been has no context. -/
theorem Routed.no_context (h : Routed s) (hown : ∀ conn ∈ s.conns, s.rspContexts conn ≠ some c)
    (conn : conn_id_t) : s.rspContexts conn ≠ some c := by
  intro hc
  exact hown conn (h.opened conn (by simp [hc])) hc

theorem Routed.sendReq {conn : conn_id_t} {sends : Bool} (h : Routed s)
    (hst : s.states c k = some st) (hconn : sends = true → conn ∈ s.conns)
    (hown : sends = true → ∀ c' ∈ s.rspContexts conn, c' = c) :
    Routed { s.setState c k (some { st with responses := st.responses ++ [s.nextId] }) with
      sent := if sends then ⟨s.nextId, k, conn, c, st.id⟩ :: s.sent else s.sent
      nextId := s.nextId + 1 } := by
  have hset : Routed (s.setState c k (some { st with responses := st.responses ++ [s.nextId] })) := by
    refine h.setState ?_
    rintro _ ⟨⟩
    exact ⟨st, hst, rfl, fun _ hmem => List.mem_append_left _ hmem⟩
  cases sends with
  | false => exact hset.nextId
  | true =>
      refine Routed.nextId (hset.send (r := ⟨s.nextId, k, conn, c, st.id⟩) (hconn rfl)
        (setState_self _ _ _ _) rfl ?_ (hown rfl))
      exact List.mem_append_right _ (List.mem_singleton.2 rfl)

theorem Routed.down {conn : conn_id_t} (h : Routed s) (hown : Own (.down conn) s) :
    ∃ s', step (.down conn) s = .goes s' ∧ Routed s' := by
  have hdrop := @Routed.drop s conn h (Function.update s.reqContexts conn none)
  rw [step]
  cases hreq : s.reqContexts conn with
  | none => exact ⟨_, rfl, hdrop⟩
  | some c =>
      refine ⟨_, rfl, hdrop.destroy fun conn' hc => ?_⟩
      rcases eq_or_ne conn' conn with rfl | hne
      · simp at hc
      · simp only [Function.update_of_ne hne] at hc
        exact hown c hreq conn' (h.opened conn' (by simp [hc])) hne hc

theorem Routed.process (h : Routed s) (hc : (s.contexts c).isSome)
    (hkind : s.contexts c ≠ some .remote) :
    Routed { s.start c s.nextId with nextId := s.nextId + 1 } := by
  have hfree : ∀ r ∈ s.sent, r.ctx = c → r.sourceid = s.nextId → ¬s.Answerable r := by
    rintro r hr rfl hid
    exact absurd (h.sentNumber r hr hkind hc) (hid ▸ lt_irrefl _)
  have hstart := h.nextId.start (c := c) (k := s.nextId) hc (fun _ => Nat.lt_succ_self _)
    fun _ => hfree
  simp only [Routing.start] at hstart ⊢
  split at hstart
  · next hsome =>
      rw [if_pos hsome]
      exact hstart
  · next hnone =>
      rw [if_neg hnone]
      exact hstart

theorem step_routed {e : Event} (h : Routed s) (hown : Own e s) :
    step e s = .blocked ∨ ∃ s', step e s = .goes s' ∧ Routed s' := by
  cases e with
  | up conn =>
      rw [step]
      split
      · exact .inl rfl
      · exact .inr ⟨_, rfl, h.up⟩
  | down conn => exact .inr (h.down hown)
  | addTimer => exact .inr ⟨_, rfl, h.make _⟩
  | removeTimer c =>
      rw [step]
      split
      · exact .inr ⟨_, rfl, h.destroy (h.no_context hown)⟩
      · exact .inl rfl
  | request c reqid =>
      rw [step]
      split
      · next hc =>
          refine .inr ⟨_, rfl, h.start (by simp [hc]) (fun hne => absurd hc hne) ?_⟩
          exact fun hnone r hr hctx hid hans => hans (hown hnone r hr hctx hid)
      · exact .inl rfl
  | process c =>
      rw [step]
      split
      · exact .inl rfl
      · exact .inl rfl
      · next kind hne hc =>
          exact .inr ⟨_, rfl, h.process (by simp [hc]) (by simpa [hc] using hne)⟩
  | connect c conn =>
      rw [step]
      split
      · exact .inl rfl
      · next hnot =>
          rw [not_or] at hnot
          exact .inr ⟨_, rfl, h.connect hnot.1 (Option.isSome_iff_ne_none.2 hnot.2)⟩
  | sendReq c k conn sends =>
      rw [step]
      split
      · exact .inl rfl
      · next st hst =>
          split
          · exact .inl rfl
          · next hnot =>
              refine .inr ⟨_, rfl, h.sendReq hst (fun hsends => ?_) hown⟩
              by_contra hconn
              exact hnot ⟨hsends, hconn⟩
  | finish c k => exact .inr ⟨_, rfl, h.setState (by rintro _ ⟨⟩)⟩
  | reset c =>
      refine .inr ⟨_, rfl, ?_⟩
      have hpre : ∀ c' k st, Function.update s.states c (fun _ => none) c' k = some st →
          s.states c' k = some st := by
        intro c' k st hst
        rcases eq_or_ne c' c with rfl | hne
        · simp at hst
        · rwa [Function.update_of_ne hne] at hst
      have hne : ∀ c' k, Function.update s.states c (fun _ => none) c' k ≠ none →
          s.states c' k ≠ none := by
        intro c' k hne
        obtain ⟨st, hst⟩ := Option.ne_none_iff_exists'.1 hne
        simp [hpre c' k st hst]
      exact { h with
        hosted := fun c' k hk => h.hosted c' k (hne c' k hk)
        issuer := fun r hr hans st hst => h.issuer r hr hans st (hpre _ _ _ hst)
        stateNumber := fun c' hc k hk => h.stateNumber c' hc k (hne c' k hk) }
  | respond r =>
      rw [step]
      split
      · next hr =>
          obtain ⟨s', hgo, hrouted, -⟩ := h.deliver hr
          exact .inr ⟨s', hgo, hrouted⟩
      · exact .inl rfl

theorem run_routed (hr : Run step Own init s) : Routed s := by
  refine hr.invariant init_routed ?_ ?_
  · intro e s s' h hown hgo
    rcases step_routed h hown with hblocked | ⟨s'', hgo', h'⟩
    · rw [hblocked] at hgo
      cases hgo
    · rw [hgo'] at hgo
      cases hgo
      exact h'
  · intro e s h hown hwild
    rcases step_routed h hown with hblocked | ⟨s'', hgo', -⟩
    · rw [hblocked] at hwild
      cases hwild
    · rw [hgo'] at hwild
      cases hwild

/-- A response, whenever it comes, goes to the state that asked for it or to none. -/
theorem response_to_issuer (hr : Run step Own init s) :
    ∀ r ∈ s.sent, ∃ s', step (.respond r) s = .goes s' ∧ ToIssuer r s s' := by
  intro r hmem
  obtain ⟨s', hgo, -, hto⟩ := (run_routed hr).deliver hmem
  refine ⟨s', ?_, hto⟩
  rw [step, if_pos hmem]
  exact hgo

/-- The local context opens a connection and sends a request over it, a request comes in and
one of its own goes out over a connection that it opened. -/
theorem response_to_issuer_two :
    ∃ s : Routing, s.sent = [⟨4, 2, 7, 1, 1⟩, ⟨2, 1, 5, 0, 0⟩] ∧
      ∀ r ∈ s.sent, ∃ s', step (.respond r) s = .goes s' ∧ ToIssuer r s s' := by
  have hrun : ∃ s : Routing, exec step Own [.process 0, .connect 0 5, .sendReq 0 1 5 true, .up 6,
      .request 1 2, .sendReq 1 2 0 false, .connect 1 7, .sendReq 1 2 7 true,
      .respond ⟨2, 1, 5, 0, 0⟩, .finish 0 1, .respond ⟨2, 1, 5, 0, 0⟩] init = some s ∧
      s.sent = [⟨4, 2, 7, 1, 1⟩, ⟨2, 1, 5, 0, 0⟩] := ⟨_, rfl, rfl⟩
  obtain ⟨s, hs, hsent⟩ := hrun
  exact ⟨s, hsent, response_to_issuer (Run.of_exec hs)⟩

/-- The local context waits in its state 2. A request of the same number comes in and sends
one of its own over the connection of the local context. The response erases the state that
waits. -/
theorem not_response_to_issuer : ¬∀ s, Run step (fun _ _ => True) init s →
    ∀ r ∈ s.sent, ∃ s', step (.respond r) s = .goes s' ∧ ToIssuer r s s' := by
  intro h
  have hrun : ∃ s s' : Routing, exec step (fun _ _ => True) [.process 0, .connect 0 5, .finish 0 1,
      .process 0, .sendReq 0 2 5 true, .up 6, .request 1 2, .sendReq 1 2 5 true] init = some s ∧
      ⟨4, 2, 5, 1, 2⟩ ∈ s.sent ∧ step (.respond ⟨4, 2, 5, 1, 2⟩) s = .goes s' ∧
      s.states 0 2 = some ⟨1, [3], []⟩ ∧ s'.states 0 2 = none :=
    ⟨_, _, rfl, List.mem_cons_self, rfl, rfl, rfl⟩
  obtain ⟨s, s', hs, hmem, hgo, hst, hst'⟩ := hrun
  obtain ⟨s'', hgo', -, hto⟩ := h s (Run.of_exec hs) _ hmem
  obtain rfl : s' = s'' := by
    rw [hgo] at hgo'
    exact Next.goes.inj hgo'
  obtain ⟨hc, -⟩ := hto 0 2 (by rw [hst, hst']; simp)
  cases hc

end Routing

end Ztsdb.Net
