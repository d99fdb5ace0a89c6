import Mathlib
import Ztsdb.Net.Connections

/-!
# The two mappings

The map from descriptors to ids and the map from ids to connections stay inverse to each
other as long as two things do not come about: a connection is entered under a descriptor
that still has an entry, its `disconnect` having closed it and not yet deleted the
mapping; and a `disconnect` deletes a mapping that another has already deleted.
-/

namespace Ztsdb.Net

open Ztsdb.Lib

/-- What a thread deletes is there. -/
def Disconnect.Clear (s : Connections) : Disconnect → Prop
  | .delete id => s.connections id ≠ none
  | _ => True

def NetThread.Present (s : Connections) : NetThread → Prop
  | .disconnects d => d.Clear s
  | _ => True

def HandlerThread.Present (s : Connections) : HandlerThread → Prop
  | .failed id => s.connections id ≠ none
  | .disconnects d => d.Clear s
  | _ => True

/-- The descriptor that a thread is about to enter has no entry. -/
def NetThread.Free (s : Connections) : NetThread → Prop
  | .accepted fd => s.fdToId fd = none
  | _ => True

def HandlerThread.Free (s : Connections) : HandlerThread → Prop
  | .connected fd => s.fdToId fd = none
  | _ => True

namespace Connections

/-- The step deletes no id that has no entry, and finds room in the list of signals. -/
def Present (max_size : Nat) (e : NetStep ⊕ HandlerStep) (s : Connections) : Prop :=
  0 < max_size ∧
  match e with
  | .inl (.next _) => s.net.Present s
  | .inr (.next _) => s.handler.Present s
  | _ => True

/-- Nor does it enter a descriptor that has one. -/
def Clear (max_size : Nat) (e : NetStep ⊕ HandlerStep) (s : Connections) : Prop :=
  s.Present max_size e ∧
  match e with
  | .inl (.next _) => s.net.Free s
  | .inr (.next _) => s.handler.Free s
  | _ => True

/-- No thread is in the middle of an accept, a connect or a disconnect. -/
def Quiet (s : Connections) : Prop := s.net = .idle ∧ s.handler = .idle

/-- The maps are inverse to each other. -/
def Inverse (s : Connections) : Prop :=
  ∀ fd id, s.fdToId fd = some id ↔ ∃ dir, s.connections id = some ⟨fd, dir⟩

/-- The maps of `s'` are those of `s`. -/
def SameMaps (s s' : Connections) : Prop :=
  s'.fdToId = s.fdToId ∧ s'.connections = s.connections ∧ s'.last = s.last

/-- Every id in the maps was given out. -/
def Known (s : Connections) : Prop := ∀ id, s.connections id ≠ none → id ≤ s.last

theorem Inverse.of_same {s s' : Connections} (h : s.Inverse) (hs : SameMaps s s') : s'.Inverse := by
  obtain ⟨hf, hc, -⟩ := hs
  intro fd id
  rw [hf, hc]
  exact h fd id

theorem Known.of_same {s s' : Connections} (h : s.Known) (hs : SameMaps s s') : s'.Known := by
  obtain ⟨-, hc, hl⟩ := hs
  intro id
  rw [hc, hl]
  exact h id

/-- The next id is in neither map. -/
theorem Known.fresh {s : Connections} (hk : s.Known) : s.connections (s.last + 1) = none := by
  by_contra hne
  exact Nat.not_succ_le_self _ (hk _ hne)

theorem createConnection_known {s : Connections} (hk : s.Known) (fd : Nat) (dir : Direction) :
    (s.createConnection fd dir).Known := by
  have hnew := hk.fresh
  intro id hne
  show id ≤ s.last + 1
  simp only [createConnection, if_pos hnew] at hne
  by_cases hid : id = s.last + 1
  · exact Nat.le_of_eq hid
  · rw [Function.update_of_ne hid] at hne
    exact Nat.le_succ_of_le (hk id hne)

/-- A new entry under a descriptor without one. -/
theorem createConnection_inverse {s : Connections} (hi : s.Inverse) (hk : s.Known) {fd : Nat}
    (hfd : s.fdToId fd = none) (dir : Direction) : (s.createConnection fd dir).Inverse := by
  have hnew := hk.fresh
  have hnone (id : conn_id_t) (d : Direction) : s.connections id ≠ some ⟨fd, d⟩ := by
    intro h
    have := (hi fd id).2 ⟨d, h⟩
    rw [hfd] at this
    cases this
  intro fd' id
  simp only [createConnection, if_pos hfd, if_pos hnew]
  by_cases hf : fd' = fd
  · subst hf
    rw [Function.update_self]
    by_cases hid : id = s.last + 1
    · subst hid
      rw [Function.update_self]
      exact ⟨fun _ => ⟨dir, rfl⟩, fun _ => rfl⟩
    · rw [Function.update_of_ne hid]
      refine ⟨fun h => ?_, fun ⟨d, h⟩ => absurd h (hnone id d)⟩
      cases h
      exact absurd rfl hid
  · rw [Function.update_of_ne hf]
    by_cases hid : id = s.last + 1
    · subst hid
      rw [Function.update_self]
      refine ⟨fun h => ?_, fun ⟨d, h⟩ => ?_⟩
      · obtain ⟨d, hd⟩ := (hi fd' _).1 h
        rw [hnew] at hd
        cases hd
      · cases h
        exact absurd rfl hf
    · rw [Function.update_of_ne hid]
      exact hi fd' id

/-- An entry deleted from both. -/
theorem deleteConnection_inverse {s s' : Connections} {id : conn_id_t} (hi : s.Inverse)
    (h : s.deleteConnection id = some s') : s'.Inverse := by
  unfold deleteConnection at h
  split at h
  · cases h
  next c hc =>
  cases h
  have hentry : s.fdToId c.fd = some id := (hi c.fd id).2 ⟨c.dir, hc⟩
  intro fd' id'
  by_cases hf : fd' = c.fd
  · subst hf
    simp only [Function.update_self]
    refine ⟨nofun, fun ⟨d, h⟩ => ?_⟩
    by_cases hid : id' = id
    · subst hid
      rw [Function.update_self] at h
      cases h
    · rw [Function.update_of_ne hid] at h
      have := (hi c.fd id').2 ⟨d, h⟩
      rw [hentry] at this
      cases this
      exact absurd rfl hid
  · simp only [Function.update_of_ne hf]
    by_cases hid : id' = id
    · subst hid
      rw [Function.update_self]
      refine ⟨fun h => ?_, nofun⟩
      obtain ⟨d, hd⟩ := (hi fd' id').1 h
      rw [hc] at hd
      cases hd
      exact absurd rfl hf
    · rw [Function.update_of_ne hid]
      exact hi fd' id'

theorem deleteConnection_known {s s' : Connections} {id : conn_id_t} (hk : s.Known)
    (h : s.deleteConnection id = some s') : s'.Known := by
  unfold deleteConnection at h
  split at h
  · cases h
  · cases h
    intro id' hne
    by_cases hid : id' = id
    · subst hid
      simp only [Function.update_self, ne_eq, not_true_eq_false] at hne
    · simp only [Function.update_of_ne hid] at hne
      exact hk id' hne

/-- What every step keeps. -/
structure Mapped (s : Connections) : Prop where
  inverse : s.Inverse
  known : s.Known

theorem Mapped.of_same {s s' : Connections} (h : s.Mapped) (hs : SameMaps s s') : s'.Mapped :=
  ⟨h.inverse.of_same hs, h.known.of_same hs⟩

theorem Mapped.create {s : Connections} (h : s.Mapped) {fd : Nat} (hfd : s.fdToId fd = none)
    (dir : Direction) : (s.createConnection fd dir).Mapped :=
  ⟨createConnection_inverse h.inverse h.known hfd dir, createConnection_known h.known fd dir⟩

theorem Mapped.delete {s s' : Connections} {id : conn_id_t} (h : s.Mapped)
    (hd : s.deleteConnection id = some s') : s'.Mapped :=
  ⟨deleteConnection_inverse h.inverse hd, deleteConnection_known h.known hd⟩

/-- What a step of `disconnect` can do. -/
inductive Disconnects (max_size : Nat) (s : Connections) :
    Disconnect → Connections → Option Disconnect → Prop
  | unknown (id : conn_id_t) : Disconnects max_size s (.look id) s none
  | found {id : conn_id_t} {c : Connection} (hne : id ≠ 0) (hc : s.connections id = some c) :
      Disconnects max_size s (.look id) s (some (.close id c.fd))
  | closed (id : conn_id_t) (fd : Nat) :
      Disconnects max_size s (.close id fd) { s with opened := s.opened.erase fd }
        (some (.delete id))
  | deleted {id : conn_id_t} {t : Connections} (hdel : s.deleteConnection id = some t) :
      Disconnects max_size s (.delete id) t (some (.add_sig id))
  | signalled (id : conn_id_t) :
      Disconnects max_size s (.add_sig id) (s.addSig max_size id .DOWN) (some .write)
  | written : Disconnects max_size s .write s none

theorem disconnect_cases {max_size : Nat} {d : Disconnect} {s t : Connections}
    {d' : Option Disconnect} (h : disconnect max_size d s = .goes (t, d')) :
    Disconnects max_size s d t d' := by
  cases d with
  | look id =>
      rw [disconnect] at h
      split at h
      · cases h
        exact .unknown id
      · next hne =>
          split at h
          · cases h
            exact .unknown id
          · next c hc =>
              cases h
              exact .found hne hc
  | close id fd =>
      cases h
      exact .closed id fd
  | delete id =>
      rw [disconnect] at h
      split at h
      · cases h
      · next hdel =>
          cases h
          exact .deleted hdel
  | add_sig id =>
      rw [disconnect] at h
      split at h
      · cases h
      · cases h
        exact .signalled id
  | write =>
      cases h
      exact .written

theorem disconnect_mapped {max_size : Nat} {d : Disconnect} {s t : Connections}
    {d' : Option Disconnect} (hs : s.Mapped) (h : disconnect max_size d s = .goes (t, d')) :
    t.Mapped := by
  cases disconnect_cases h with
  | unknown => exact hs
  | found => exact hs
  | closed => exact hs.of_same ⟨rfl, rfl, rfl⟩
  | deleted hdel => exact hs.delete hdel
  | signalled => exact hs.of_same ⟨rfl, rfl, rfl⟩
  | written => exact hs

theorem disconnect_ne_wild {max_size : Nat} {d : Disconnect} {s : Connections}
    (hpos : 0 < max_size) (hc : d.Clear s) : disconnect max_size d s ≠ .wild := by
  intro h
  cases d with
  | look id =>
      rw [disconnect] at h
      split at h
      · cases h
      · split at h
        · cases h
        · cases h
  | close id fd => cases h
  | delete id =>
      rw [disconnect] at h
      split at h
      · next hnone =>
          unfold deleteConnection at hnone
          split at hnone
          · next hid => exact hc hid
          · cases hnone
      · cases h
  | add_sig id =>
      rw [disconnect, if_neg (by omega)] at h
      cases h
  | write => cases h

theorem stepNet_mapped {max_size : Nat} {e : NetStep} {s s' : Connections} (hs : s.Mapped)
    (hc : s.Clear max_size (.inl e)) (h : stepNet max_size e s = .goes s') : s'.Mapped := by
  unfold stepNet at h
  split at h
  · split at h
    · cases h
    · cases h
      exact hs.of_same ⟨rfl, rfl, rfl⟩
  · cases h
    exact hs.of_same ⟨rfl, rfl, rfl⟩
  · next fd hnet =>
      cases h
      have hfd : s.net.Free s := hc.2
      rw [hnet] at hfd
      exact (hs.create hfd .INCOMING).of_same ⟨rfl, rfl, rfl⟩
  · split at h
    · cases h
    · cases h
      exact hs.of_same ⟨rfl, rfl, rfl⟩
  · cases h
    exact hs.of_same ⟨rfl, rfl, rfl⟩
  · split at h
    · next t ht =>
        cases h
        exact (disconnect_mapped hs ht).of_same ⟨rfl, rfl, rfl⟩
    · next t d' ht =>
        cases h
        exact (disconnect_mapped hs ht).of_same ⟨rfl, rfl, rfl⟩
    · cases h
    · cases h
  · cases h

theorem stepHandler_mapped {max_size : Nat} {e : HandlerStep} {s s' : Connections} (hs : s.Mapped)
    (hc : s.Clear max_size (.inr e)) (h : stepHandler max_size e s = .goes s') : s'.Mapped := by
  unfold stepHandler at h
  split at h
  · split at h
    · cases h
    · cases h
      exact hs.of_same ⟨rfl, rfl, rfl⟩
  · split at h
    · cases h
    · cases h
      exact hs.of_same ⟨rfl, rfl, rfl⟩
  · split at h
    · cases h
      exact hs.of_same ⟨rfl, rfl, rfl⟩
    · cases h
  · cases h
    exact hs.of_same ⟨rfl, rfl, rfl⟩
  · cases h
    exact hs.of_same ⟨rfl, rfl, rfl⟩
  · split at h
    · cases h
      exact hs.of_same ⟨rfl, rfl, rfl⟩
    · cases h
      exact hs.of_same ⟨rfl, rfl, rfl⟩
  · next fd hh =>
      cases h
      have hfd : s.handler.Free s := hc.2
      rw [hh] at hfd
      exact (hs.create hfd .OUTGOING).of_same ⟨rfl, rfl, rfl⟩
  · cases h
    exact hs.of_same ⟨rfl, rfl, rfl⟩
  · split at h
    · cases h
    · next t ht =>
        cases h
        exact (hs.delete ht).of_same ⟨rfl, rfl, rfl⟩
  · split at h
    · next t ht =>
        cases h
        exact (disconnect_mapped hs ht).of_same ⟨rfl, rfl, rfl⟩
    · next t d' ht =>
        cases h
        exact (disconnect_mapped hs ht).of_same ⟨rfl, rfl, rfl⟩
    · cases h
    · cases h
  · cases h

theorem step_mapped {max_size : Nat} {e : NetStep ⊕ HandlerStep} {s s' : Connections}
    (hs : s.Mapped) (hc : s.Clear max_size e) (h : step max_size e s = .goes s') : s'.Mapped := by
  cases e with
  | inl e => exact stepNet_mapped hs hc h
  | inr e => exact stepHandler_mapped hs hc h

theorem step_ne_wild {max_size : Nat} {e : NetStep ⊕ HandlerStep} {s : Connections}
    (hc : s.Present max_size e) : step max_size e s ≠ .wild := by
  obtain ⟨hpos, hc⟩ := hc
  intro h
  cases e with
  | inl e =>
      rw [step] at h
      unfold stepNet at h
      split at h
      · split at h
        · cases h
        · cases h
      · cases h
      · cases h
      · rw [if_neg (by omega)] at h
        cases h
      · cases h
      · next d hd =>
          split at h
          · cases h
          · cases h
          · cases h
          · next hw =>
              have hd' : s.net.Present s := hc
              rw [hd] at hd'
              exact disconnect_ne_wild hpos hd' hw
      · cases h
  | inr e =>
      rw [step] at h
      unfold stepHandler at h
      split at h
      · split at h
        · cases h
        · cases h
      · split at h
        · cases h
        · cases h
      · split at h
        · cases h
        · cases h
      · cases h
      · cases h
      · split at h
        · cases h
        · cases h
      · cases h
      · cases h
      · next id hid =>
          split at h
          · next hnone =>
              unfold deleteConnection at hnone
              split at hnone
              · next hgone =>
                  have hid' : s.handler.Present s := hc
                  rw [hid] at hid'
                  exact hid' hgone
              · cases hnone
          · cases h
      · next d hd =>
          split at h
          · cases h
          · cases h
          · cases h
          · next hw =>
              have hd' : s.handler.Present s := hc
              rw [hd] at hd'
              exact disconnect_ne_wild hpos hd' hw
      · cases h

theorem run_mapped {max_size : Nat} {s : Connections}
    (h : Run (step max_size) (fun e s => s.Clear max_size e) .init s) : s.Mapped := by
  refine h.invariant ⟨?_, ?_⟩ (fun _ _ _ hs hc hgo => step_mapped hs hc hgo)
    fun _ _ _ hc => step_ne_wild hc.1
  · intro fd id
    exact ⟨nofun, nofun⟩
  · intro id hne
    exact absurd rfl hne

/-- The maps are inverse to each other whenever both threads are idle, and in between. -/
theorem run_inverse (max_size : Nat) {s : Connections}
    (h : Run (step max_size) (fun e s => s.Clear max_size e) .init s) : s.Inverse :=
  (run_mapped h).inverse

/-- A connection accepted under descriptor 5. -/
def acceptFive : List (NetStep ⊕ HandlerStep) :=
  [.inl (.accept 5), .inl (.next false), .inl (.next false), .inl (.next false)]

/-- A connection entered. -/
theorem run_inverse_one : ∃ s : Connections, s.Inverse ∧ s.connections 1 = some ⟨5, .INCOMING⟩ :=
  ⟨_, run_inverse 10 (.step (a := .inl (.next false)) (.step (a := .inl (.accept 5)) .start
    ⟨⟨by decide, trivial⟩, trivial⟩ rfl) ⟨⟨by decide, trivial⟩, rfl⟩ rfl), rfl⟩

/-- The handler closes descriptor 5, the network thread accepts another connection under it
and enters that, then the handler deletes the mapping. -/
theorem not_inverse_reused :
    ¬ ∀ s, Run (step 10) (fun _ _ => True) .init s → s.Quiet → s.Inverse := by
  intro h
  have hrun : ∃ s, exec (step 10) (fun _ _ => True) (acceptFive ++ [.inr .get_sig,
      .inr (.next false), .inr (.sendFail 1), .inr (.next false), .inr (.next false)] ++
      acceptFive ++ [.inr (.next false), .inr (.next false), .inr (.next false)]) .init = some s ∧
      s.Quiet ∧ s.fdToId 5 = none ∧ s.connections 2 = some ⟨5, .INCOMING⟩ :=
    ⟨_, rfl, ⟨rfl, rfl⟩, rfl, rfl⟩
  obtain ⟨s, hs, hq, hf, hc⟩ := hrun
  have := (h s (Run.of_exec hs) hq 5 2).2 ⟨_, hc⟩
  rw [hf] at this
  cases this

end Connections

end Ztsdb.Net
