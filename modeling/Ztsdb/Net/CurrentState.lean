import Mathlib
import Ztsdb.Net.RemoteContext

/-!
# The current state of an evaluation context

The context of the local program, that of a connection and that of a timer share their
tables and differ in how they evaluate. An evaluation makes its state the current one and
leaves it so while it waits for a response; whatever erases the current state is to forget
it. All of them do but one: a response to a request that its state does not know erases the
state and leaves the pointer to it.
-/

namespace Ztsdb.Net.InterpCtx

open Ztsdb.Lib RemoteContext

/-- The contexts derived from `InterpCtx`. -/
inductive Kind where
  | ctxLocal
  | ctxRemote
  | ctxTimer
  deriving DecidableEq

/-- The loop of the local `interpret`, which lets the exception to quit through. The error
that a response brings is raised as one of a step. -/
def runStepsLocal : List InterpStep → InterpState → Stopped × InterpState
  | [], st => (.finished, st)
  | t :: ts, st =>
    match t.ends with
    | .goes | .raised true => runStepsLocal ts (st.sendReqs t.sent)
    | .future | .quit => (.waits, st.sendReqs t.sent)
    | .raised false => (.raised, st.sendReqs t.sent)

/-- The state at its place in the table. -/
def put (ctx : RemoteContext) (st : InterpState) : RemoteContext :=
  { ctx with states := ctx.states.map fun x => if x.reqid = st.reqid then st else x }

/-- Erase the state and forget it. -/
def drop (ctx : RemoteContext) (st : InterpState) : RemoteContext :=
  { ctx.erase st.reqid with s := none }

/-- `InterpCtxLocal::interpret`. -/
def interpretLocal (ctx : RemoteContext) (st : InterpState) (ev : Evaluation) : RemoteContext :=
  let ctx := { put ctx (runStepsLocal ev.steps st).2 with s := some st.addr }
  match (runStepsLocal ev.steps st).1 with
  | .waits => ctx
  | .raised => drop ctx st
  | .finished =>
    if ev.sigint || ev.silent then drop ctx st
    else
      match ev.last with
      | .missing => ctx
      | .future => ctx
      | .value _ => drop ctx st

/-- `InterpCtxTimer::interpret`. -/
def interpretTimer (ctx : RemoteContext) (st : InterpState) (ev : Evaluation) : RemoteContext :=
  let ctx := { ctx.evaluate st.reqid ev with s := some st.addr }
  match (runSteps ev.steps st).1 with
  | .waits => ctx
  | .raised => drop ctx st
  | .finished => drop ctx st

def interpret : Kind → RemoteContext → InterpState → Evaluation → RemoteContext
  | .ctxLocal => interpretLocal
  | .ctxRemote => RemoteContext.interpret
  | .ctxTimer => interpretTimer

/-- `states.emplace`, and the evaluation of the state that is then in the table. -/
def enter (kind : Kind) (ctx : RemoteContext) (peerid : conn_id_t) (reqid sourceid : reqid_t)
    (addr request : Nat) (ev : Evaluation) : RemoteContext :=
  match ctx.find reqid with
  | some st => interpret kind ctx st ev
  | none =>
    let st := ⟨addr, reqid, sourceid, peerid, [], request⟩
    interpret kind (ctx.insert st) st ev

def readReqData (kind : Kind) (ctx : RemoteContext) (peerid : conn_id_t)
    (reqid sourceid : reqid_t) (now addr : Nat) (read : ReqRead) (ev : Evaluation) :
    RemoteContext :=
  let requests :=
    if reqid ∈ ctx.requests.map ReqState.reqid then ctx.requests
    else ctx.requests ++ [⟨reqid, sourceid, now⟩]
  let rest := requests.filter fun req => req.reqid ≠ reqid
  match read with
  | .more | .unbound => { ctx with requests := requests }
  | .invalid => { ctx with requests := rest }
  | .complete =>
    enter kind { ctx with requests := rest, received := ctx.received + 1 } peerid reqid sourceid
      addr ctx.received ev

def readRspData (kind : Kind) (ctx : RemoteContext) (reqid sourceid : reqid_t) (read : RspRead)
    (ev : Evaluation) : RemoteContext :=
  match ctx.find sourceid with
  | none => ctx
  | some st =>
    if reqid ∈ st.responses.map Prod.fst then
      match read with
      | .more | .invalid => ctx
      | .complete => interpret kind ctx st ev
    else ctx.erase sourceid

/-- `gc_states`; the local context shows its message and answers nobody. -/
def gc_states (kind : Kind) (ctx : RemoteContext) (now ttl : Nat) (sends : Bool) : RemoteContext :=
  match kind with
  | .ctxLocal => { ctx.gc_states now ttl sends with answered := ctx.answered }
  | .ctxRemote | .ctxTimer => ctx.gc_states now ttl sends

/-- What happens to a context; `prog` is a program of the local context or the expression
of a timer. -/
inductive Event where
  | prog (peerid : conn_id_t) (reqid sourceid : reqid_t) (addr : Nat) (ev : Evaluation)
  | req (peerid : conn_id_t) (reqid sourceid : reqid_t) (now addr : Nat) (read : ReqRead)
      (ev : Evaluation)
  | rsp (reqid sourceid : reqid_t) (read : RspRead) (ev : Evaluation)
  | gc (now inreqttl inrspttl : Nat) (sends : Bool)
  | reset

def step (kind : Kind) (e : Event) (ctx : RemoteContext) : Next RemoteContext :=
  match e with
  | .prog peerid reqid sourceid addr ev =>
    if kind = .ctxRemote ∨ addr ∈ ctx.states.map InterpState.addr then .blocked
    else .goes (enter kind ctx peerid reqid sourceid addr ctx.received ev)
  | .req peerid reqid sourceid now addr read ev =>
    if addr ∈ ctx.states.map InterpState.addr then .blocked
    else .goes (readReqData kind ctx peerid reqid sourceid now addr read ev)
  | .rsp reqid sourceid read ev => .goes (readRspData kind ctx reqid sourceid read ev)
  | .gc now inreqttl inrspttl sends =>
    .goes (gc_states kind (ctx.gc_requests now inreqttl) now inrspttl sends)
  | .reset => .goes ctx.reset

/-! On a connection the context is the one described before. -/

theorem readReqData_remote (peerid : conn_id_t) (reqid sourceid : reqid_t) (now addr : Nat)
    (read : ReqRead) (ev : Evaluation) (ctx : RemoteContext) :
    readReqData .ctxRemote ctx peerid reqid sourceid now addr read ev =
      ctx.readReqData peerid reqid sourceid now addr read ev := by
  cases read with
  | complete =>
      rw [readReqData, RemoteContext.readReqData]
      simp only [enter, RemoteContext.find]
      cases ctx.states.find? fun st => decide (st.reqid = reqid) <;> rfl
  | more => rfl
  | invalid => rfl
  | unbound => rfl

theorem readRspData_remote (reqid sourceid : reqid_t) (read : RspRead) (ev : Evaluation)
    (ctx : RemoteContext) :
    readRspData .ctxRemote ctx reqid sourceid read ev =
      ctx.readRspData reqid sourceid read ev := by
  rw [readRspData, RemoteContext.readRspData]
  cases ctx.find sourceid with
  | none => rfl
  | some st =>
      simp only
      split
      · cases read <;> rfl
      · rfl

/-- The current state is in the table, or there is none. -/
def Refers (ctx : RemoteContext) : Prop :=
  ctx.s = none ∨ ∃ st ∈ ctx.states, ctx.s = some st.addr

instance (ctx : RemoteContext) : Decidable (Refers ctx) :=
  inferInstanceAs (Decidable (_ ∨ ∃ st ∈ ctx.states, _))

/-- The event is not a response to a request that the current state does not know. -/
def Spares (e : Event) (ctx : RemoteContext) : Prop :=
  match e with
  | .rsp reqid sourceid _ _ => ∀ st ∈ ctx.find sourceid,
      ctx.s = some st.addr → reqid ∈ st.responses.map Prod.fst
  | _ => True

instance (e : Event) (ctx : RemoteContext) : Decidable (Spares e ctx) := by
  cases e <;> unfold Spares <;> infer_instance

/-! ## What an evaluation does to the table -/

/-- The table has one state for a key, and the current state is in it. -/
structure Tracked (ctx : RemoteContext) : Prop where
  keys : (ctx.states.map InterpState.reqid).Nodup
  refers : Refers ctx

/-- States changed in place, and the one evaluated either current or erased. -/
structure Evaluated (ctx : RemoteContext) (st : InterpState) (f : InterpState → InterpState)
    (ctx' : RemoteContext) : Prop where
  reqid : ∀ x, (f x).reqid = x.reqid
  addr : ∀ x ∈ ctx.states, (f x).addr = x.addr
  ends : ctx'.states = ctx.states.map f ∧ ctx'.s = some st.addr ∨
    ctx'.states = (ctx.states.map f).filter (fun x => x.reqid ≠ st.reqid) ∧ ctx'.s = none

variable {ctx ctx' : RemoteContext} {st : InterpState} {ev : Evaluation} {kind : Kind}

theorem tracked_of_evaluated {f : InterpState → InterpState} (h : Tracked ctx)
    (hst : st ∈ ctx.states) (hev : Evaluated ctx st f ctx') : Tracked ctx' := by
  have hkeys : ((ctx.states.map f).map InterpState.reqid).Nodup := by
    rw [List.map_map]
    rw [show InterpState.reqid ∘ f = InterpState.reqid from funext hev.reqid]
    exact h.keys
  rcases hev.ends with ⟨hstates, hs⟩ | ⟨hstates, hs⟩
  · constructor
    · rwa [hstates]
    · refine Or.inr ⟨f st, ?_, ?_⟩
      · rw [hstates]
        exact List.mem_map_of_mem hst
      · rw [hs, hev.addr st hst]
  · constructor
    · rw [hstates]
      exact hkeys.sublist (List.filter_sublist.map _)
    · exact Or.inl hs

theorem runStepsLocal_eq (ts : List InterpStep) (st : InterpState) :
    (runStepsLocal ts st).2 = { st with responses := (runStepsLocal ts st).2.responses } := by
  induction ts generalizing st with
  | nil => rfl
  | cons t ts ih =>
      rw [runStepsLocal]
      split
      · exact ih _
      · exact ih _
      · rfl
      · rfl
      · rfl

/-- The loop of a connection or a timer changes its state in place. -/
theorem evaluate_in_place (ev : Evaluation) (reqid : reqid_t) (x : InterpState) :
    let x' := if x.reqid = reqid then (runSteps ev.steps x).2 else x
    x'.reqid = x.reqid ∧ x'.addr = x.addr := by
  simp only
  split
  · rw [runSteps_eq]
    exact ⟨rfl, rfl⟩
  · exact ⟨rfl, rfl⟩

theorem finish_evaluated {f : InterpState → InterpState} {c : RemoteContext} (sends : Bool)
    (hreqid : ∀ x, (f x).reqid = x.reqid) (haddr : ∀ x ∈ ctx.states, (f x).addr = x.addr)
    (hc : c.states = ctx.states.map f ∧ c.s = some st.addr) :
    Evaluated ctx st f (c.finish st sends) := by
  refine ⟨hreqid, haddr, ?_⟩
  rw [finish]
  split
  · refine Or.inr ⟨?_, rfl⟩
    rw [← hc.1]
    rfl
  · exact Or.inl hc

theorem drop_evaluated {f : InterpState → InterpState} {c : RemoteContext}
    (hreqid : ∀ x, (f x).reqid = x.reqid) (haddr : ∀ x ∈ ctx.states, (f x).addr = x.addr)
    (hc : c.states = ctx.states.map f) : Evaluated ctx st f (drop c st) :=
  ⟨hreqid, haddr, Or.inr ⟨by rw [← hc]; rfl, rfl⟩⟩

/-- Whatever the kind of the context, an evaluation changes states in place, and erases no
other state than its own and with it the pointer. -/
theorem interpret_evaluated (h : Tracked ctx) (hst : st ∈ ctx.states) :
    ∃ f, Evaluated ctx st f (interpret kind ctx st ev) := by
  have hplace := evaluate_in_place ev st.reqid
  cases kind with
  | ctxLocal =>
      have hreqid : (runStepsLocal ev.steps st).2.reqid = st.reqid := by rw [runStepsLocal_eq]
      have haddr : (runStepsLocal ev.steps st).2.addr = st.addr := by rw [runStepsLocal_eq]
      have hf : ∀ x : InterpState, (if x.reqid = (runStepsLocal ev.steps st).2.reqid then
          (runStepsLocal ev.steps st).2 else x).reqid = x.reqid := by
        intro x
        split
        · next heq => exact heq.symm
        · rfl
      have hf' : ∀ x ∈ ctx.states, (if x.reqid = (runStepsLocal ev.steps st).2.reqid then
          (runStepsLocal ev.steps st).2 else x).addr = x.addr := by
        intro x hx
        split
        · next heq =>
            have hsame : x = st := List.inj_on_of_nodup_map h.keys hx hst (heq.trans hreqid)
            rw [haddr, hsame]
        · rfl
      refine ⟨fun x => if x.reqid = (runStepsLocal ev.steps st).2.reqid then
        (runStepsLocal ev.steps st).2 else x, ?_⟩
      show Evaluated ctx st _ (interpretLocal ctx st ev)
      rw [interpretLocal]
      split
      · exact ⟨hf, hf', Or.inl ⟨rfl, rfl⟩⟩
      · exact drop_evaluated hf hf' rfl
      · split
        · exact drop_evaluated hf hf' rfl
        · split
          · exact ⟨hf, hf', Or.inl ⟨rfl, rfl⟩⟩
          · exact ⟨hf, hf', Or.inl ⟨rfl, rfl⟩⟩
          · exact drop_evaluated hf hf' rfl
  | ctxRemote =>
      refine ⟨fun x => if x.reqid = st.reqid then (runSteps ev.steps x).2 else x, ?_⟩
      show Evaluated ctx st _ (RemoteContext.interpret ctx st ev)
      have hgoes : Evaluated ctx st _ { ctx.evaluate st.reqid ev with s := some st.addr } :=
        ⟨fun x => (hplace x).1, fun x _ => (hplace x).2, Or.inl ⟨rfl, rfl⟩⟩
      have hfinish := finish_evaluated ev.sends hgoes.reqid hgoes.addr
        (c := { ctx.evaluate st.reqid ev with s := some st.addr }) ⟨rfl, rfl⟩
      rw [RemoteContext.interpret]
      split
      · exact hgoes
      · exact hfinish
      · split
        · exact hfinish
        · split
          · exact hfinish
          · split
            · exact hgoes
            · exact hgoes
            · exact hfinish
            · split
              · exact ⟨hgoes.reqid, hgoes.addr, Or.inl ⟨rfl, rfl⟩⟩
              · exact hgoes
  | ctxTimer =>
      refine ⟨fun x => if x.reqid = st.reqid then (runSteps ev.steps x).2 else x, ?_⟩
      show Evaluated ctx st _ (interpretTimer ctx st ev)
      rw [interpretTimer]
      split
      · exact ⟨fun x => (hplace x).1, fun x _ => (hplace x).2, Or.inl ⟨rfl, rfl⟩⟩
      · exact drop_evaluated (fun x => (hplace x).1) (fun x _ => (hplace x).2) rfl
      · exact drop_evaluated (fun x => (hplace x).1) (fun x _ => (hplace x).2) rfl

theorem interpret_tracked (h : Tracked ctx) (hst : st ∈ ctx.states) :
    Tracked (interpret kind ctx st ev) :=
  let ⟨_, hev⟩ := interpret_evaluated h hst
  tracked_of_evaluated h hst hev

/-! ## Events and runs -/

theorem Tracked.of_states (h : Tracked ctx) (hstates : ctx'.states = ctx.states)
    (hs : ctx'.s = ctx.s) : Tracked ctx' :=
  ⟨by rw [hstates]; exact h.keys, by rw [Refers, hstates, hs]; exact h.refers⟩

theorem insert_tracked (h : Tracked ctx) (hnew : ctx.find st.reqid = none) :
    Tracked (ctx.insert st) := by
  have hperm : (ctx.insert st).states.Perm (st :: ctx.states) := List.perm_orderedInsert _ _ _
  constructor
  · refine (hperm.map _).nodup_iff.mpr (List.nodup_cons.mpr ⟨fun hmem => ?_, h.keys⟩)
    obtain ⟨x, hx, heq⟩ := List.mem_map.mp hmem
    have := List.find?_eq_none.mp hnew x hx
    simp [heq] at this
  · exact h.refers.imp_right fun ⟨x, hx, heq⟩ => ⟨x, hperm.mem_iff.mpr (.tail _ hx), heq⟩

theorem enter_tracked {peerid : conn_id_t} {reqid sourceid : reqid_t} {addr request : Nat}
    (h : Tracked ctx) : Tracked (enter kind ctx peerid reqid sourceid addr request ev) := by
  rw [enter]
  split
  · next st hfind => exact interpret_tracked h (find_mem hfind).1
  · next hfind =>
      exact interpret_tracked (insert_tracked h hfind) ((List.mem_orderedInsert _).mpr (.inl rfl))

/-- Collecting forgets the current state or leaves it in the table. -/
theorem gcLoop_refers (now ttl : Nat) (sends : Bool) (sts : List InterpState) (s : Option Nat)
    (answered : List Nat) :
    let r := gcLoop now ttl sends sts s answered
    r.1.Sublist sts ∧ (r.2.1 = none ∨ r.2.1 = s ∧ ∀ x ∈ sts, s = some x.addr → x ∈ r.1) := by
  induction sts generalizing s answered with
  | nil => exact ⟨.slnil, .inr ⟨rfl, fun x hx => by cases hx⟩⟩
  | cons st sts ih =>
      rw [gcLoop]
      split
      · split
        · split
          · obtain ⟨hsub, hs⟩ := ih none (st.request :: answered)
            exact ⟨hsub.cons _, .inl (hs.elim id fun h => h.1)⟩
          · exact ⟨.refl _, .inr ⟨rfl, fun _ hx _ => hx⟩⟩
        · next hother =>
            obtain ⟨hsub, hs⟩ := ih s answered
            refine ⟨hsub.cons _, hs.imp_right fun h => ⟨h.1, fun x hx heq => ?_⟩⟩
            rcases List.mem_cons.mp hx with rfl | hx
            · exact absurd heq hother
            · exact h.2 x hx heq
      · obtain ⟨hsub, hs⟩ := ih s answered
        refine ⟨hsub.cons_cons _, hs.imp_right fun h => ⟨h.1, fun x hx heq => ?_⟩⟩
        rcases List.mem_cons.mp hx with rfl | hx
        · exact .head _
        · exact .tail _ (h.2 x hx heq)

theorem gc_tracked {now ttl : Nat} {sends : Bool} (h : Tracked ctx) :
    Tracked (gc_states kind ctx now ttl sends) := by
  obtain ⟨hsub, hs⟩ := gcLoop_refers now ttl sends ctx.states ctx.s ctx.answered
  have hgc : Tracked (ctx.gc_states now ttl sends) := by
    refine ⟨h.keys.sublist (hsub.map _), ?_⟩
    rcases hs with hnone | ⟨hsame, hkept⟩
    · exact Or.inl hnone
    · refine h.refers.imp (fun hnone => hsame.trans hnone) ?_
      rintro ⟨x, hx, heq⟩
      exact ⟨x, hkept x hx heq, hsame.trans heq⟩
  cases kind with
  | ctxLocal => exact hgc.of_states rfl rfl
  | ctxRemote => exact hgc
  | ctxTimer => exact hgc

/-- A response erases a state that is not the current one. -/
theorem erase_tracked {reqid : reqid_t} (h : Tracked ctx) (hfind : ctx.find reqid = some st)
    (hs : ctx.s ≠ some st.addr) : Tracked (ctx.erase reqid) := by
  obtain ⟨hst, hreqid⟩ := find_mem hfind
  refine ⟨h.keys.sublist (List.filter_sublist.map _), h.refers.imp_right ?_⟩
  rintro ⟨x, hx, heq⟩
  refine ⟨x, List.mem_filter.mpr ⟨hx, ?_⟩, heq⟩
  have hne : x.reqid ≠ reqid := by
    intro hsame
    have : x = st := List.inj_on_of_nodup_map h.keys hx hst (hsame.trans hreqid.symm)
    exact hs (this ▸ heq)
  simpa using hne

theorem step_tracked {e : Event} (h : Tracked ctx) (hspare : Spares e ctx)
    (hgo : step kind e ctx = .goes ctx') : Tracked ctx' := by
  cases e with
  | prog peerid reqid sourceid addr ev =>
      rw [step] at hgo
      split at hgo
      · cases hgo
      · cases hgo
        exact enter_tracked h
  | req peerid reqid sourceid now addr read ev =>
      rw [step] at hgo
      split at hgo
      · cases hgo
      · cases hgo
        cases read with
        | complete => exact enter_tracked (h.of_states rfl rfl)
        | more => exact h.of_states rfl rfl
        | invalid => exact h.of_states rfl rfl
        | unbound => exact h.of_states rfl rfl
  | rsp reqid sourceid read ev =>
      cases hgo
      rw [readRspData]
      split
      · exact h
      · next st hfind =>
          split
          · cases read with
            | complete => exact interpret_tracked h (find_mem hfind).1
            | more => exact h
            | invalid => exact h
          · next hunknown => exact erase_tracked h hfind fun hs => hunknown (hspare st hfind hs)
  | gc now inreqttl inrspttl sends =>
      cases hgo
      exact gc_tracked (h.of_states rfl rfl)
  | reset =>
      cases hgo
      exact ⟨.nil, Or.inl rfl⟩

/-- Between events the current state is in the table or there is none, in every run in which
no response to a request unknown to the current state comes for that state. -/
theorem run_refers (hr : Run (step kind) Spares init ctx) : Refers ctx := by
  have htracked : Tracked ctx := by
    refine hr.invariant ⟨.nil, Or.inl rfl⟩ (fun e s s' h hspare hgo => step_tracked h hspare hgo) ?_
    intro e s _ _ hwild
    cases e with
    | prog => rw [step] at hwild; split at hwild <;> cases hwild
    | req => rw [step] at hwild; split at hwild <;> cases hwild
    | rsp => cases hwild
    | gc => cases hwild
    | reset => cases hwild
  exact htracked.refers

/-- A program that waits, a peer's request that does too, and a late response to the first. -/
theorem run_refers_two : Refers ⟨[], [⟨100, 7, 0, 0, [(50, 10)], 0⟩, ⟨200, 9, 2, 3, [(51, 20)], 0⟩],
    some 200, 1, []⟩ := by
  refine @run_refers _ .ctxLocal (@Run.of_exec _ _ _ _ _ _ _ [.prog 0 7 0 100 (asks 50 10),
    .req 3 9 2 20 200 .complete (asks 51 20), .rsp 50 7 .more (returns true),
    .rsp 60 8 .complete (returns true)] ?_)
  decide

/-- A response to a request that nobody made leaves the pointer to the state it erases. -/
theorem not_run_refers : ∃ ctx, Run (step .ctxLocal) (fun _ _ => True) init ctx ∧ ¬Refers ctx := by
  refine ⟨⟨[], [], some 100, 0, []⟩, ?_, by decide⟩
  exact @Run.of_exec _ _ _ _ _ _ _ [.prog 0 7 0 100 (asks 50 10), .rsp 60 7 .more (returns true)]
    (by decide)

end Ztsdb.Net.InterpCtx
