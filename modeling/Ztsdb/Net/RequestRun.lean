import Mathlib
import Ztsdb.Lib.Portions
import Ztsdb.Net.Endpoint

/-!
# Requests over a connection

A request is collected under its number. What is kept of it is always what its own messages
have brought; with the last of them the interpreter is given the expression and the values of
its bound variables, and nothing is kept any more.
-/

namespace Ztsdb.Net.Endpoint

open Ztsdb.Lib Ztsdb.Arr Ztsdb.Lang

variable {s s' : Endpoint} {m : List UInt8} {payloads : List (List UInt8)} {reqid : reqid_t}

/-! ## Requests over a run -/

/-- The number of the request that a message is of. -/
def reqidOf (m : List UInt8) : Option reqid_t := (headOf .REQ m).map Prod.fst

/-- The request stays as it is. -/
structure SparesRequest (reqid : reqid_t) (s s' : Endpoint) : Prop where
  net : s'.net = s.net
  taken : s'.taken = s.taken
  begun : s'.begunOf reqid = s.begunOf reqid
  requests : s'.requests reqid = s.requests reqid

theorem readReqData_sparesRequest {k : Nat} {r sourceid : reqid_t} {buf : List UInt8}
    (h : s.readReqData k r sourceid buf = some s') (hne : r ≠ reqid) : SparesRequest reqid s s' := by
  obtain ⟨req, -, rfl⟩ := Option.map_eq_some_iff.mp h
  split
  · refine ⟨rfl, rfl, ?_, Function.update_of_ne hne.symm ..⟩
    rw [begunOf, List.filter_append, List.filter_cons_of_neg (by simpa using hne), List.filter_nil,
      List.append_nil]
    rfl
  · exact ⟨rfl, rfl, rfl, Function.update_of_ne hne.symm ..⟩

theorem readRspData_sparesRequest {k : Nat} {r sourceid : reqid_t} {buf : List UInt8}
    (h : s.readRspData k r sourceid buf = some s') : SparesRequest reqid s s' := by
  rw [readRspData] at h
  split at h
  · cases h
    exact ⟨rfl, rfl, rfl, rfl⟩
  · split at h
    · cases h
      exact ⟨rfl, rfl, rfl, rfl⟩
    · obtain ⟨rsp, -, rfl⟩ := Option.map_eq_some_iff.mp h
      exact ⟨rfl, rfl, rfl, rfl⟩

theorem dispatch_sparesRequest {k : Nat} (hk : reqidOf m ≠ some reqid) (h : s.dispatch k m = .goes s') :
    SparesRequest reqid { s with taken := s.taken + 1 } s' := by
  rw [dispatch] at h
  split at h
  · cases h
  · split at h
    · next hreq =>
        refine readReqData_sparesRequest (goes_of_elim h) fun hr => hk ?_
        rw [reqidOf, hreq, Option.map_some, hr]
    · exact readRspData_sparesRequest (goes_of_elim h)
    · cases h
      exact ⟨rfl, rfl, rfl, rfl⟩

theorem refused_sparesRequest {left : RspState} (hk : reqidOf m ≠ some reqid) :
    SparesRequest reqid { s with taken := s.taken + 1 } (s.refused left m) := by
  rw [refused]
  split
  · next r sourceid hreq =>
      refine ⟨rfl, rfl, rfl, Function.update_of_ne (fun hr => hk ?_) ..⟩
      rw [reqidOf, hreq, Option.map_some, ← hr]
  · exact ⟨rfl, rfl, rfl, rfl⟩
  · exact ⟨rfl, rfl, rfl, rfl⟩

/-- What a run is to leave alone until the request is there: it is not dropped for its age,
and a message is refused only when it cannot be read. -/
def Keeps (reqid : reqid_t) : EndpointEvent → Endpoint → Prop
  | .refuse _, s => ∀ m ∈ s.net.ready[s.taken]?, ∀ k, s.dispatch k m = .blocked
  | .gc_requests keep, s => s.begunOf reqid = [] → keep reqid = true
  | _, _ => True

/-- The request with the messages that have been taken: it is collected, or it has been given
to the interpreter. -/
structure Collecting (payloads : List (List UInt8)) (b : Begun) (s : Endpoint) : Prop where
  net : Assembles payloads s
  pending : inputs reqidOf b.reqid (payloads.drop s.taken) ≠ [] → s.begunOf b.reqid = [] ∧
    Collected reqidOf b.reqid (List.drop 24) Request.ReqState.readData Request.ReqState.init payloads
      s.taken ((s.requests b.reqid).getD Request.ReqState.init)
  given : inputs reqidOf b.reqid (payloads.drop s.taken) = [] → s.begunOf b.reqid = [b]

theorem Collecting.spares {b : Begun} (h : Collecting payloads b s) (hm : payloads[s.taken]? = some m)
    (hk : reqidOf m ≠ some b.reqid) (hs : SparesRequest b.reqid { s with taken := s.taken + 1 } s') :
    Collecting payloads b s' := by
  have hdrop := inputs_drop reqidOf b.reqid hm
  rw [if_neg hk] at hdrop
  have htaken : s'.taken = s.taken + 1 := hs.taken
  have hbegun : s'.begunOf b.reqid = s.begunOf b.reqid := hs.begun
  have hreq : s'.requests b.reqid = s.requests b.reqid := hs.requests
  refine ⟨h.net.congr hs.net, fun hp => ?_, fun hg => ?_⟩
  · rw [htaken, ← hdrop] at hp
    obtain ⟨hnone, hc⟩ := h.pending hp
    exact ⟨hbegun.trans hnone, by rw [hreq, htaken]; exact hc.other hm hk⟩
  · rw [htaken, ← hdrop] at hg
    rw [hbegun]
    exact h.given hg

/-- A chunk of the request can be read, and then the request is begun if it was the last. -/
theorem Collecting.own {b : Begun} {e : E} (h : Collecting payloads b s) (hb : b.e = some e)
    (hc : Request.Arrives e b.boundvars ((inputs reqidOf b.reqid payloads).map (List.drop 24)))
    (hm : payloads[s.taken]? = some m) (hk : headOf .REQ m = some (b.reqid, b.sourceid))
    (hhead : Headed m) :
    (∃ k₀, ∀ k, k₀ ≤ k → ∃ s', s.dispatch k m = .goes s') ∧
      ∀ k s', s.dispatch k m = .goes s' → Collecting payloads b s' := by
  have hkey : reqidOf m = some b.reqid := by rw [reqidOf, hk, Option.map_some]
  have hdrop := inputs_drop reqidOf b.reqid hm
  rw [if_pos hkey] at hdrop
  obtain ⟨hnone, hcol⟩ := h.pending (by rw [hdrop]; exact List.cons_ne_nil _ _)
  -- the request behind this chunk
  obtain ⟨j, req, hreq, hdone, hval⟩ := hc
    ((inputs reqidOf b.reqid (payloads.take (s.taken + 1))).map (List.drop 24))
    ((inputs reqidOf b.reqid (payloads.drop (s.taken + 1))).map (List.drop 24))
    (by rw [← List.map_append, ← inputs_split])
  rw [List.map_eq_nil_iff] at hdone hval
  have hcol' : Collected reqidOf b.reqid (List.drop 24) Request.ReqState.readData Request.ReqState.init
      payloads (s.taken + 1) req := ⟨j, hreq⟩
  obtain ⟨hsame, k₀, hgo⟩ := hcol.own Request.ReqState.readData_deepens hm hkey hcol'
  have hdisp (k : Nat) : s.dispatch k m =
      (readReqData k b.reqid b.sourceid (m.drop 24) { s with taken := s.taken + 1 }).elim .blocked
        .goes := by
    rw [dispatch, if_neg (not_not.mpr hhead), hk]
  refine ⟨⟨k₀, fun k hk₀ => ⟨_, by rw [hdisp, readReqData, hgo k hk₀]; rfl⟩⟩, fun k s' hs' => ?_⟩
  rw [hdisp, readReqData] at hs'
  cases hr : ((s.requests b.reqid).getD Request.ReqState.init).readData k (m.drop 24) with
  | none =>
      rw [hr] at hs'
      cases hs'
  | some t =>
      obtain rfl := hsame k t hr
      rw [hr, Option.map_some] at hs'
      cases hds : decide (t.state = .CTX_REQ_DONE) with
      | false =>
          have hne := of_decide_eq_false hds
          have hs' : s' = { s with
              taken := s.taken + 1
              requests := Function.update s.requests b.reqid (some t) } := by
            split at hs'
            · next hd _ => exact absurd hd hne
            · cases hs'
              rfl
          subst hs'
          refine ⟨h.net, fun _ => ⟨hnone, ?_⟩, fun hg => absurd (hdone.mpr hg) hne⟩
          show Collected _ _ _ _ _ _ _ ((Function.update s.requests b.reqid (some t) b.reqid).getD _)
          rw [Function.update_self]
          exact hcol'
      | true =>
          have hd := of_decide_eq_true hds
          obtain ⟨he, hstack, -⟩ := hval (hdone.mp hd)
          have hlist : t.valstack.head?.map ValState.val = some (.list b.boundvars) := by
            rw [hstack, List.head?_cons, Option.map_some, Val.state_val]
          rw [hd, hlist, he] at hs'
          cases hs'
          refine ⟨h.net, fun hp => absurd (hdone.mp hd) hp, fun _ => ?_⟩
          rw [begunOf, List.filter_append]
          refine (congrArg (· ++ _) hnone).trans ?_
          rw [List.nil_append, List.filter_cons_of_pos (by simp), ← hb]
          rfl

theorem step_collecting {b : Begun} {e : E} {ev : EndpointEvent} (h : Collecting payloads b s)
    (hp : Messages payloads) (hb : b.e = some e)
    (hc : Request.Arrives e b.boundvars ((inputs reqidOf b.reqid payloads).map (List.drop 24)))
    (hown : ∀ m ∈ payloads, reqidOf m = some b.reqid → headOf .REQ m = some (b.reqid, b.sourceid))
    (hx : Keeps b.reqid ev s) (hgo : step ev s = .goes s') : Collecting payloads b s' := by
  obtain ⟨r, net, rfl, hnet, rfl⟩ | ⟨k, m, rfl, hm, hdisp⟩ | ⟨left, m, rfl, hm, rfl⟩ |
    ⟨states, rfl, rfl⟩ | ⟨keep, rfl, rfl⟩ := step_cases hgo
  · exact ⟨h.net.net hp hnet, h.pending, h.given⟩
  · have hmem := h.net.message hm
    by_cases hk : reqidOf m = some b.reqid
    · exact (h.own hb hc hmem (hown m (List.mem_of_getElem? hmem) hk) (hp.headed hmem)).2 k s' hdisp
    · exact h.spares hmem hk (dispatch_sparesRequest hk hdisp)
  · have hmem := h.net.message hm
    by_cases hk : reqidOf m = some b.reqid
    · obtain ⟨k₀, hgo⟩ :=
        (h.own hb hc hmem (hown m (List.mem_of_getElem? hmem) hk) (hp.headed hmem)).1
      obtain ⟨t, ht⟩ := hgo k₀ le_rfl
      rw [hx m hm k₀] at ht
      cases ht
    · exact h.spares hmem hk (refused_sparesRequest hk)
  · exact ⟨h.net, h.pending, h.given⟩
  · refine ⟨h.net, fun hpend => ?_, h.given⟩
    obtain ⟨hnone, hcol⟩ := h.pending hpend
    refine ⟨hnone, ?_⟩
    dsimp only
    rw [if_pos (hx hnone)]
    exact hcol

end Ztsdb.Net.Endpoint
