import Mathlib
import Ztsdb.Lib.Portions
import Ztsdb.Net.Endpoint

/-!
# Responses over a connection

A response is collected from the messages that carry its key, whatever is between them: a
message for something else leaves it as it is, and one of its own reads one of its chunks on.
So its state is always that of its own chunks alone, and the interpreter is given the value
with the last of them.
-/

namespace Ztsdb.Net.Endpoint

open Ztsdb.Lib Ztsdb.Arr

variable {s s' : Endpoint} {m : List UInt8} {payloads : List (List UInt8)} {key : reqid_t × reqid_t}

/-! ## What a message leaves alone -/

/-- A response for the state of another one is awaited too. -/
def Awaited (key : reqid_t × reqid_t) (m : List UInt8) (s : Endpoint) : Prop :=
  ∀ r, headOf .RSP m = some (r, key.2) → (s.waits (r, key.2)).isSome

/-- The response stays as it is. -/
structure Spares (key : reqid_t × reqid_t) (awaited : Prop) (s s' : Endpoint) : Prop where
  net : s'.net = s.net
  taken : s'.taken = s.taken
  answers : s'.answersTo key = s.answersTo key
  waits : awaited → s'.waits key = s.waits key

theorem readReqData_spares {k : Nat} {r sourceid : reqid_t} {buf : List UInt8}
    (h : s.readReqData k r sourceid buf = some s') : Spares key True s s' := by
  obtain ⟨req, -, rfl⟩ := Option.map_eq_some_iff.mp h
  split
  · exact ⟨rfl, rfl, rfl, fun _ => rfl⟩
  · exact ⟨rfl, rfl, rfl, fun _ => rfl⟩

theorem waits_update {states : reqid_t → Option (reqid_t → Option RspState)} {r sourceid : reqid_t}
    {responses : reqid_t → Option RspState} {rsp : Option RspState} (hs : states sourceid = some responses)
    (hne : (r, sourceid) ≠ key) :
    ((Function.update states sourceid (some (Function.update responses r rsp))) key.2).bind
        (fun responses => responses key.1) =
      (states key.2).bind fun responses => responses key.1 := by
  by_cases h2 : key.2 = sourceid
  · have h1 : key.1 ≠ r := fun h1 => hne (Prod.ext h1.symm h2.symm)
    rw [h2, Function.update_self, hs, Option.bind_some, Option.bind_some, Function.update_of_ne h1]
  · rw [Function.update_of_ne h2]

theorem answersTo_setRsp (r sourceid : reqid_t) (responses : reqid_t → Option RspState) (rsp : RspState)
    (s : Endpoint) :
    (s.setRsp r sourceid responses rsp).answersTo key = s.answersTo key ++
      if (r, sourceid) = key ∧ rsp.state = .CTX_RSP_DONE then (rsp.valstack.head?.map ValState.val).toList
      else [] := by
  rw [answersTo, setRsp, List.filter_append, List.map_append]
  congr 1
  by_cases hd : rsp.state = .CTX_RSP_DONE
  · cases rsp.valstack.head? with
    | none => simp [hd]
    | some vs => by_cases hk : (r, sourceid) = key <;> simp [hd, hk]
  · simp [hd]

theorem readRspData_spares {k : Nat} {r sourceid : reqid_t} {buf : List UInt8}
    (h : s.readRspData k r sourceid buf = some s') (hne : (r, sourceid) ≠ key) :
    Spares key (sourceid = key.2 → (s.waits (r, sourceid)).isSome) s s' := by
  rw [readRspData] at h
  cases hs : s.states sourceid with
  | none =>
      rw [hs] at h
      cases h
      exact ⟨rfl, rfl, rfl, fun _ => rfl⟩
  | some responses =>
      rw [hs] at h
      dsimp only at h
      cases hr : responses r with
      | none =>
          rw [hr] at h
          cases h
          refine ⟨rfl, rfl, rfl, fun haw => ?_⟩
          by_cases h2 : key.2 = sourceid
          · have hsome := haw h2.symm
            rw [waits, hs, Option.bind_some, hr] at hsome
            cases hsome
          · exact congrArg (fun o => o.bind fun responses => responses key.1)
              (Function.update_of_ne h2 none s.states)
      | some rsp =>
          rw [hr] at h
          obtain ⟨rsp', -, rfl⟩ := Option.map_eq_some_iff.mp h
          refine ⟨rfl, rfl, ?_, fun _ => waits_update hs hne⟩
          rw [answersTo_setRsp, if_neg (fun h => hne h.1), List.append_nil]

theorem dispatch_spares {k : Nat} (hk : headOf .RSP m ≠ some key) (h : s.dispatch k m = .goes s') :
    Spares key (s.Awaited key m) { s with taken := s.taken + 1 } s' := by
  rw [dispatch] at h
  split at h
  · cases h
  · split at h
    · have hspares : Spares key True _ s' := readReqData_spares (goes_of_elim h)
      exact ⟨hspares.net, hspares.taken, hspares.answers, fun _ => hspares.waits trivial⟩
    · next r sourceid _ hrsp =>
        have hne : (r, sourceid) ≠ key := fun he => hk (by rw [hrsp, he])
        have hspares := readRspData_spares (goes_of_elim h) hne
        refine ⟨hspares.net, hspares.taken, hspares.answers, fun haw => hspares.waits ?_⟩
        rintro rfl
        exact haw r hrsp
    · cases h
      exact ⟨rfl, rfl, rfl, fun _ => rfl⟩

theorem refused_spares {left : RspState} (hk : headOf .RSP m ≠ some key) :
    Spares key True { s with taken := s.taken + 1 } (s.refused left m) := by
  rw [refused]
  dsimp only
  split
  · exact ⟨rfl, rfl, rfl, fun _ => rfl⟩
  · next r sourceid _ hrsp =>
      have hne : (r, sourceid) ≠ key := fun he => hk (by rw [hrsp, he])
      refine ⟨rfl, rfl, rfl, fun _ => ?_⟩
      cases hs : s.states sourceid with
      | none =>
          rw [Option.map_none, ← hs]
          exact congrArg (fun f => (f key.2).bind fun responses => responses key.1)
            (Function.update_eq_self sourceid s.states)
      | some responses => exact waits_update hs hne
  · exact ⟨rfl, rfl, rfl, fun _ => rfl⟩

/-! ## Responses over a run -/

/-- What a run is to leave alone until the answer is there: the interpreter waits for it, a
response that nobody waits for does not remove its state, and a message is refused only when
it cannot be read. -/
def Expects (key : reqid_t × reqid_t) : EndpointEvent → Endpoint → Prop
  | .handle _, s => s.answersTo key = [] → ∀ m ∈ s.net.ready[s.taken]?, s.Awaited key m
  | .refuse _, s => ∀ m ∈ s.net.ready[s.taken]?, ∀ k, s.dispatch k m = .blocked
  | .interpret states, s => s.answersTo key = [] → Endpoint.waits { s with states } key = s.waits key
  | _, _ => True

/-- Of the chunks the last one completes the response, with the value. -/
def Completes (bufs : List (List UInt8)) (v : Val) : Prop :=
  ∀ cs ds, bufs = cs ++ ds → cs ≠ [] → ∃ k rsp, takes (RspState.readData k) cs RspState.init = some rsp ∧
    (rsp.state = .CTX_RSP_DONE ↔ ds = []) ∧ (ds = [] → rsp.valstack.head?.map ValState.val = some v)

/-- The response with the messages that have been taken: it is collected, or it has been
given to the interpreter. -/
structure Waiting (payloads : List (List UInt8)) (key : reqid_t × reqid_t) (v : Val) (s : Endpoint) :
    Prop where
  net : Assembles payloads s
  pending : inputs (headOf .RSP) key (payloads.drop s.taken) ≠ [] → s.answersTo key = [] ∧
    ∃ rsp, s.waits key = some rsp ∧ Collected (headOf .RSP) key (List.drop 24) RspState.readData
      RspState.init payloads s.taken rsp
  answered : inputs (headOf .RSP) key (payloads.drop s.taken) = [] → s.answersTo key = [v]

/-- A message for something else. -/
theorem Waiting.spares {v : Val} {awaited : Prop} (h : Waiting payloads key v s)
    (hm : payloads[s.taken]? = some m) (hk : headOf .RSP m ≠ some key)
    (hs : Spares key awaited { s with taken := s.taken + 1 } s') (haw : s.answersTo key = [] → awaited) :
    Waiting payloads key v s' := by
  have hdrop := inputs_drop (headOf .RSP) key hm
  rw [if_neg hk] at hdrop
  have htaken : s'.taken = s.taken + 1 := hs.taken
  have hans : s'.answersTo key = s.answersTo key := hs.answers
  refine ⟨h.net.congr hs.net, fun hp => ?_, fun ha => ?_⟩
  · rw [htaken, ← hdrop] at hp
    obtain ⟨hnone, rsp, hrsp, hc⟩ := h.pending hp
    refine ⟨hans.trans hnone, rsp, ?_, htaken ▸ hc.other hm hk⟩
    rw [← hrsp]
    exact hs.waits (haw hnone)
  · rw [htaken, ← hdrop] at ha
    rw [hans]
    exact h.answered ha

/-- A chunk of the response can be read, and then it is there if it was the last. -/
theorem Waiting.own {v : Val} (h : Waiting payloads key v s)
    (hc : Completes ((inputs (headOf .RSP) key payloads).map (List.drop 24)) v)
    (hm : payloads[s.taken]? = some m) (hk : headOf .RSP m = some key) (hhead : Headed m) :
    (∃ k₀, ∀ k, k₀ ≤ k → ∃ s', s.dispatch k m = .goes s') ∧
      ∀ k s', s.dispatch k m = .goes s' → Waiting payloads key v s' := by
  have hdrop := inputs_drop (headOf .RSP) key hm
  rw [if_pos hk] at hdrop
  obtain ⟨hnone, rsp, hrsp, hcol⟩ := h.pending (by rw [hdrop]; exact List.cons_ne_nil _ _)
  -- the response behind this chunk
  obtain ⟨j, rsp', hrsp', hdone, hval⟩ := hc
    ((inputs (headOf .RSP) key (payloads.take (s.taken + 1))).map (List.drop 24))
    ((inputs (headOf .RSP) key (payloads.drop (s.taken + 1))).map (List.drop 24))
    (by rw [← List.map_append, ← inputs_split])
    (by rw [inputs_take_succ _ _ hm, if_pos hk, List.map_append]; exact List.append_ne_nil_of_right_ne_nil _ (List.cons_ne_nil _ _))
  rw [List.map_eq_nil_iff] at hdone hval
  have hcol' : Collected (headOf .RSP) key (List.drop 24) RspState.readData RspState.init payloads
      (s.taken + 1) rsp' := ⟨j, hrsp'⟩
  obtain ⟨hsame, k₀, hgo⟩ := hcol.own RspState.readData_deepens hm hk hcol'
  obtain ⟨responses, hst, hresp⟩ := Option.bind_eq_some_iff.mp hrsp
  have hdisp (k : Nat) : s.dispatch k m = ((rsp.readData k (m.drop 24)).map fun rsp =>
      Endpoint.setRsp key.1 key.2 responses rsp { s with taken := s.taken + 1 }).elim .blocked .goes := by
    rw [dispatch, if_neg (not_not.mpr hhead), headOf_req_of_rsp hk, hk]
    dsimp only
    rw [readRspData]
    simp only [hst, hresp]
  refine ⟨⟨k₀, fun k hk₀ => ⟨_, by rw [hdisp, hgo k hk₀]; rfl⟩⟩, fun k s' hs' => ?_⟩
  rw [hdisp] at hs'
  cases hr : rsp.readData k (m.drop 24) with
  | none =>
      rw [hr] at hs'
      cases hs'
  | some t =>
      obtain rfl := hsame k t hr
      rw [hr] at hs'
      cases hs'
      have hnone : Endpoint.answersTo { s with taken := s.taken + 1 } key = [] := hnone
      refine ⟨h.net, fun hp => ⟨?_, t, ?_, hcol'⟩, fun ha => ?_⟩
      · rw [answersTo_setRsp, hnone, if_neg (fun hd => hp (hdone.mp hd.2)), List.append_nil]
      · show ((Function.update s.states key.2 _) key.2).bind _ = _
        rw [Function.update_self, Option.bind_some, Function.update_self]
      · rw [answersTo_setRsp, hnone, if_pos ⟨rfl, hdone.mpr ha⟩, hval ha]
        rfl

theorem step_waiting {v : Val} {e : EndpointEvent} (h : Waiting payloads key v s) (hp : Messages payloads)
    (hc : Completes ((inputs (headOf .RSP) key payloads).map (List.drop 24)) v) (hx : Expects key e s)
    (hgo : step e s = .goes s') : Waiting payloads key v s' := by
  obtain ⟨r, net, rfl, hnet, rfl⟩ | ⟨k, m, rfl, hm, hdisp⟩ | ⟨left, m, rfl, hm, rfl⟩ |
    ⟨states, rfl, rfl⟩ | ⟨keep, rfl, rfl⟩ := step_cases hgo
  · exact ⟨h.net.net hp hnet, h.pending, h.answered⟩
  · have hmem := h.net.message hm
    by_cases hk : headOf .RSP m = some key
    · exact (h.own hc hmem hk (hp.headed hmem)).2 k s' hdisp
    · exact h.spares hmem hk (dispatch_spares hk hdisp) fun hnone => hx hnone m hm
  · have hmem := h.net.message hm
    by_cases hk : headOf .RSP m = some key
    · obtain ⟨k₀, hgo⟩ := (h.own hc hmem hk (hp.headed hmem)).1
      obtain ⟨t, ht⟩ := hgo k₀ le_rfl
      rw [hx m hm k₀] at ht
      cases ht
    · exact h.spares hmem hk (refused_spares hk) fun _ => trivial
  · refine ⟨h.net, fun hpend => ?_, h.answered⟩
    obtain ⟨hnone, rsp, hrsp, hcol⟩ := h.pending hpend
    exact ⟨hnone, rsp, (hx hnone).trans hrsp, hcol⟩
  · exact ⟨h.net, h.pending, h.answered⟩

/-- The chunks of a value that is sent complete its response with the last of them. -/
theorem completes {v : Val} {ec : Encode} (hv : v.Sound) (hw : EachWhole headerSize v.items)
    (he : writeTokens v.items.flatten Encode.init = some ec) (hone : v.state.exp = 0 → ec.sent = []) :
    Completes (ec.sent ++ [ec.buf]) v := by
  intro cs ds hsplit hcs
  obtain ⟨k, rsp, hrsp, hdone, hval⟩ := RspState.complete_at hv hw he hsplit hcs
  refine ⟨k, rsp, hrsp, hdone.trans (or_iff_left_of_imp fun h0 => ?_), fun hds => ?_⟩
  · rw [hone h0, List.nil_append] at hsplit
    cases cs with
    | nil => exact absurd rfl hcs
    | cons c cs =>
        obtain ⟨-, hnil⟩ := List.cons.inj hsplit
        exact (List.append_eq_nil_iff.mp hnil.symm).2
  · rw [(hval hds).1, List.head?_cons, Option.map_some, Val.state_val]

/-- The text of an error. -/
def failure : Val := .error (ZString.ofString [101])

/-- It fits one chunk. -/
theorem failure_sent : ∃ ec, writeTokens failure.items.flatten Encode.init = some ec ∧ ec.sent = [] ∧
    ec.buf.length = 24 := by
  have hw : EachWhole (headerSize + ([] : List UInt8).length) failure.items := by decide +kernel
  have hs : failure.Sound := .error (by decide)
  obtain ⟨ec, hec, hchunks, -⟩ := hs.delivers hw
  have hlen : (chunks [] failure.items.flatten).map List.length = [] ++ [24] := by decide +kernel
  rw [← hchunks, List.map_append] at hlen
  obtain ⟨hnil, hlast⟩ := List.append_inj' hlen rfl
  exact ⟨ec, hec, List.map_eq_nil_iff.mp hnil, List.head_eq_of_cons_eq hlast⟩

end Ztsdb.Net.Endpoint
