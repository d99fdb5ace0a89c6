import Mathlib
import Ztsdb.Net.Mappings

/-!
# The contexts of the incoming connections

A context is made for every connection that comes and erased for every one that goes, in
the order of the signals. What the contexts will be once every signal given, or about to
be given, has been handled is at all times the incoming connections that are mapped. So
when none is left, the contexts are these.

A full list loses its oldest signal. That does no harm where the signal makes no
difference: a later one says that the same connection has gone, or it says so itself of
one that has no context.
-/

namespace Ztsdb.Net

open Ztsdb.Lib

/-- The handler's reaction to a signal. -/
def apply (C : Finset conn_id_t) (x : conn_id_t × Status) : Finset conn_id_t :=
  match x.2 with
  | .UP => insert x.1 C
  | .DOWN => C.erase x.1

/-- Signals handled in their order. -/
def settle (l : List (conn_id_t × Status)) (C : Finset conn_id_t) : Finset conn_id_t :=
  l.foldl apply C

/-- What the signals say of `id`, in their order. -/
def statuses (id : conn_id_t) (l : List (conn_id_t × Status)) : List Status :=
  (l.filter fun x => x.1 = id).map (·.2)

@[simp] theorem statuses_nil (id : conn_id_t) : statuses id [] = [] := rfl

theorem statuses_append (id : conn_id_t) (l l' : List (conn_id_t × Status)) :
    statuses id (l ++ l') = statuses id l ++ statuses id l' := by
  rw [statuses, List.filter_append, List.map_append, statuses, statuses]

theorem statuses_singleton (id id' : conn_id_t) (st : Status) :
    statuses id [(id', st)] = if id' = id then [st] else [] := by
  rw [statuses]
  split
  · next h => rw [List.filter_cons_of_pos (by simpa using h)]; rfl
  · next h => rw [List.filter_cons_of_neg (by simpa using h)]; rfl

theorem statuses_cons (id : conn_id_t) (x : conn_id_t × Status) (l : List (conn_id_t × Status)) :
    statuses id (x :: l) = (if x.1 = id then [x.2] else []) ++ statuses id l := by
  rw [← statuses_singleton, ← statuses_append]
  rfl

theorem mem_of_statuses {id : conn_id_t} {st : Status} {l : List (conn_id_t × Status)}
    (h : st ∈ statuses id l) : (id, st) ∈ l := by
  obtain ⟨x, hx, rfl⟩ := List.mem_map.1 h
  obtain ⟨hmem, hid⟩ := List.mem_filter.1 hx
  have hid : x.1 = id := by simpa using hid
  rw [← hid]
  exact hmem

/-- The last signal decides; without one, the context that is there. -/
theorem mem_settle_iff {id : conn_id_t} {l : List (conn_id_t × Status)} {C : Finset conn_id_t} :
    id ∈ settle l C ↔ match (statuses id l).getLast? with
      | none => id ∈ C
      | some st => st = .UP := by
  induction l using List.reverseRecOn with
  | nil => rfl
  | append_singleton l x ih =>
      obtain ⟨id', st⟩ := x
      rw [settle, List.foldl_concat, statuses_append, statuses_singleton]
      by_cases hid : id' = id
      · subst hid
        rw [if_pos rfl, List.getLast?_concat]
        cases st with
        | UP => simp [apply]
        | DOWN => simp [apply]
      · rw [if_neg hid, List.append_nil, ← ih]
        cases st with
        | UP => simp [apply, settle, Ne.symm hid]
        | DOWN => simp [apply, settle, Ne.symm hid]

/-! ## The signals to come -/

/-- The signal that a thread is about to give. -/
def Disconnect.signal : Disconnect → List (conn_id_t × Status)
  | .add_sig id => [(id, .DOWN)]
  | _ => []

def NetThread.signal : NetThread → List (conn_id_t × Status)
  | .created id => [(id, .UP)]
  | .disconnects d => d.signal
  | _ => []

def HandlerThread.signal : HandlerThread → List (conn_id_t × Status)
  | .disconnects d => d.signal
  | _ => []

/-- The signal that the handler has in hand. -/
def HandlerThread.inHand : HandlerThread → List (conn_id_t × Status)
  | .handles id st => [(id, st)]
  | _ => []

/-- The connection that a thread is at. -/
def Disconnect.id? : Disconnect → Option conn_id_t
  | .look id => if id = 0 then none else some id
  | .close id _ | .delete id | .add_sig id => some id
  | .write => none

def NetThread.id? : NetThread → Option conn_id_t
  | .created id | .signalled id => some id
  | .disconnects d => d.id?
  | _ => none

def HandlerThread.id? : HandlerThread → Option conn_id_t
  | .handles id _ | .created id | .failed id => some id
  | .disconnects d => d.id?
  | _ => none

theorem Disconnect.signal_down {d : Disconnect} {x : conn_id_t × Status} (h : x ∈ d.signal) :
    x.2 = .DOWN ∧ d.id? = some x.1 := by
  cases d with
  | add_sig id =>
      rw [List.mem_singleton.1 h]
      exact ⟨rfl, rfl⟩
  | _ => cases h

theorem HandlerThread.signal_down {t : HandlerThread} {x : conn_id_t × Status} (h : x ∈ t.signal) :
    x.2 = .DOWN ∧ t.id? = some x.1 := by
  cases t with
  | disconnects d => exact Disconnect.signal_down h
  | _ => cases h

namespace Connections

/-- The signals to come, in the order in which they will be handled. -/
def pending (s : Connections) : List (conn_id_t × Status) :=
  s.handler.inHand ++ s.sigs ++ s.net.signal ++ s.handler.signal

/-- An incoming connection that is open. -/
def Incoming (s : Connections) (id : conn_id_t) : Prop :=
  ∃ fd, s.connections id = some ⟨fd, .INCOMING⟩

/-- The oldest signal on the list makes no difference. -/
def Spare (s : Connections) : Prop :=
  match s.sigs with
  | [] => True
  | (id, st) :: l =>
    (id, .DOWN) ∈ l ++ s.net.signal ++ s.handler.signal ∨
      st = .DOWN ∧ id ∉ s.reqContexts ∧ s.handler.inHand ≠ [(id, .UP)]

/-- The step loses no signal that makes a difference. -/
def Kept (max_size : Nat) (e : NetStep ⊕ HandlerStep) (s : Connections) : Prop :=
  s.Present max_size e ∧
  match e with
  | .inl (.next _) => s.net.signal ≠ [] → s.sigs.length = max_size → s.Spare
  | .inr (.next _) => s.handler.signal ≠ [] → s.sigs.length = max_size → s.Spare
  | _ => True

/-- All signals are handled and no thread is at work. -/
def Drained (s : Connections) : Prop := s.Quiet ∧ s.sigs = []

def Mentions (s : Connections) (id : conn_id_t) : Prop :=
  s.connections id ≠ none ∨ (∃ fd, s.fdToId fd = some id) ∨ id ∈ s.reqContexts ∨
    (∃ st, (id, st) ∈ s.sigs) ∨ s.net.id? = some id ∨ s.handler.id? = some id

namespace Mentions

variable {s : Connections} {id : conn_id_t}

theorem connection (h : s.connections id ≠ none) : s.Mentions id := .inl h

theorem descriptor (h : ∃ fd, s.fdToId fd = some id) : s.Mentions id := .inr (.inl h)

theorem context (h : id ∈ s.reqContexts) : s.Mentions id := .inr (.inr (.inl h))

theorem signal (h : ∃ st, (id, st) ∈ s.sigs) : s.Mentions id := .inr (.inr (.inr (.inl h)))

theorem net (h : s.net.id? = some id) : s.Mentions id := .inr (.inr (.inr (.inr (.inl h))))

theorem handler (h : s.handler.id? = some id) : s.Mentions id :=
  .inr (.inr (.inr (.inr (.inr h))))

/-- The network thread is elsewhere. -/
theorem net_or {t : NetThread} (h : { s with net := t }.Mentions id) :
    t.id? = some id ∨ s.Mentions id := by
  rcases h with h | h | h | h | h | h
  · exact .inr (.connection h)
  · exact .inr (.descriptor h)
  · exact .inr (.context h)
  · exact .inr (.signal h)
  · exact .inl h
  · exact .inr (.handler h)

/-- The handler is elsewhere. -/
theorem handler_or {t : HandlerThread} (h : { s with handler := t }.Mentions id) :
    t.id? = some id ∨ s.Mentions id := by
  rcases h with h | h | h | h | h | h
  · exact .inr (.connection h)
  · exact .inr (.descriptor h)
  · exact .inr (.context h)
  · exact .inr (.signal h)
  · exact .inr (.net h)
  · exact .inl h

end Mentions

/-- The network thread is the only one to know a connection whose signal it has not given. -/
def Apart (s : Connections) : Prop :=
  ∀ id, s.net = .created id →
    id ∉ s.reqContexts ∧ (∀ st, (id, st) ∉ s.sigs) ∧ s.handler.id? ≠ some id

/-- The handler makes outgoing connections. -/
def Outgoing (s : Connections) : Prop :=
  ∀ id, s.handler = .created id ∨ s.handler = .failed id →
    ∀ c, s.connections id = some c → c.dir = .OUTGOING

structure Tracked (s : Connections) : Prop where
  contexts : ∀ id, id ∈ settle s.pending s.reqContexts ↔ s.Incoming id
  known : ∀ id, s.Mentions id → id ≤ s.last
  apart : s.Apart
  outgoing : s.Outgoing

/-! ## Steps that change nothing of this -/

theorem Tracked.of_same {s s' : Connections} (hs : s.Tracked) (hp : s'.pending = s.pending)
    (hr : s'.reqContexts = s.reqContexts) (hm : SameMaps s s')
    (hk : ∀ id, s'.Mentions id → s.Mentions id) (ha : s'.Apart) (ho : s'.Outgoing) :
    s'.Tracked := by
  obtain ⟨-, hc, hl⟩ := hm
  refine ⟨?_, ?_, ha, ho⟩
  · intro id
    rw [hp, hr, Incoming, hc]
    exact hs.contexts id
  · intro id hid
    rw [hl]
    exact hs.known id (hk id hid)

/-- The network thread goes on to a place that is not in front of a signal. -/
theorem Tracked.netStep {s : Connections} {t : NetThread} (hs : s.Tracked)
    (hsig : t.signal = s.net.signal) (hid : ∀ id, t.id? = some id → s.Mentions id)
    (ht : ∀ id, t ≠ .created id) : { s with net := t }.Tracked := by
  refine hs.of_same ?_ rfl ⟨rfl, rfl, rfl⟩ ?_ (fun id h => absurd h (ht id)) hs.outgoing
  · simp only [pending, hsig]
  · intro id h
    exact h.net_or.elim (hid id) fun h => h

/-- It holds no identifier any more. -/
theorem Tracked.netFree {s : Connections} {t : NetThread} (hs : s.Tracked)
    (hsig : t.signal = s.net.signal) (hid : t.id? = none) : { s with net := t }.Tracked := by
  refine hs.netStep hsig (fun id h => ?_) fun id h => ?_
  · rw [hid] at h
    cases h
  · rw [h] at hid
    cases hid

/-- So does the handler. -/
theorem Tracked.handlerStep {s : Connections} {t : HandlerThread} (hs : s.Tracked)
    (hsig : t.signal = s.handler.signal) (hhand : t.inHand = s.handler.inHand)
    (hid : ∀ id, t.id? = some id → s.Mentions id ∧ s.net ≠ .created id)
    (ht : ∀ id, t = .created id ∨ t = .failed id → ∀ c, s.connections id = some c →
      c.dir = .OUTGOING) : { s with handler := t }.Tracked := by
  refine hs.of_same ?_ rfl ⟨rfl, rfl, rfl⟩ ?_ ?_ ht
  · simp only [pending, hsig, hhand]
  · intro id h
    exact h.handler_or.elim (fun h => (hid id h).1) fun h => h
  · intro id hnet
    obtain ⟨hr, hl, -⟩ := hs.apart id hnet
    exact ⟨hr, hl, fun h => (hid id h).2 hnet⟩

theorem Tracked.handlerFree {s : Connections} {t : HandlerThread} (hs : s.Tracked)
    (hsig : t.signal = s.handler.signal) (hhand : t.inHand = s.handler.inHand)
    (hid : t.id? = none) : { s with handler := t }.Tracked := by
  refine hs.handlerStep hsig hhand (fun id h => ?_) fun id h => ?_
  · rw [hid] at h
    cases h
  · rcases h with h | h <;> (rw [h] at hid; cases hid)

/-- The descriptors that are open play no part. -/
theorem Tracked.setOpened {s : Connections} (hs : s.Tracked) (o : Finset Nat) :
    { s with opened := o }.Tracked :=
  hs.of_same rfl rfl ⟨rfl, rfl, rfl⟩ (fun _ h => h) hs.apart hs.outgoing

/-! ## Signals given -/

/-- The oldest signal lost. -/
theorem Tracked.drop {s : Connections} (hs : s.Tracked) (hspare : s.Spare) :
    { s with sigs := s.sigs.drop 1 }.Tracked := by
  cases hl : s.sigs with
  | nil =>
      rw [List.drop_nil, ← hl]
      exact hs
  | cons x l =>
      obtain ⟨id, st⟩ := x
      rw [Spare, hl] at hspare
      simp only at hspare
      refine ⟨?_, ?_, ?_, hs.outgoing⟩
      · intro id'
        refine Iff.trans ?_ (hs.contexts id')
        rw [mem_settle_iff, mem_settle_iff]
        simp only [pending, List.drop_one, List.tail_cons, hl, statuses_append, statuses_cons,
          List.append_assoc]
        by_cases hid : id = id'
        · subst hid
          rw [if_pos rfl]
          by_cases hrest : statuses id l ++ (statuses id s.net.signal ++ statuses id s.handler.signal) = []
          · rw [hrest]
            have hnone : (id, Status.DOWN) ∉ l ++ s.net.signal ++ s.handler.signal := by
              intro hmem
              have hin : Status.DOWN ∈ statuses id (l ++ s.net.signal ++ s.handler.signal) :=
                List.mem_map.2 ⟨_, List.mem_filter.2 ⟨hmem, by simp⟩, rfl⟩
              rw [statuses_append, statuses_append, List.append_assoc, hrest] at hin
              cases hin
            obtain ⟨rfl, hctx, hhand⟩ := hspare.resolve_left hnone
            rw [List.append_nil, List.append_nil, List.getLast?_concat]
            cases hh : s.handler with
            | handles id'' st' =>
                rw [hh] at hhand
                simp only [HandlerThread.inHand, statuses_singleton]
                by_cases hid' : id'' = id
                · subst hid'
                  rw [if_pos rfl]
                  cases st' with
                  | UP => exact absurd rfl hhand
                  | DOWN => exact Iff.rfl
                · rw [if_neg hid']
                  simp [hctx]
            | _ => simp [HandlerThread.inHand, hctx]
          · rw [← List.append_assoc (statuses id s.handler.inHand) [st],
              List.getLast?_append_of_ne_nil _ hrest, List.getLast?_append_of_ne_nil _ hrest]
        · rw [if_neg hid, List.nil_append]
      · intro id' h
        apply hs.known
        rcases h with h | h | h | ⟨st', h⟩ | h | h
        · exact .connection h
        · exact .descriptor h
        · exact .context h
        · exact .signal ⟨st', by rw [hl]; exact List.mem_of_mem_drop h⟩
        · exact .net h
        · exact .handler h
      · intro id' hnet
        obtain ⟨hr, hsig, hh⟩ := hs.apart id' hnet
        exact ⟨hr, fun st' hmem => hsig st' (by rw [hl]; exact List.mem_of_mem_drop hmem), hh⟩

/-- The signal of the network thread joins the list. -/
theorem Tracked.giveNet {s : Connections} {x : conn_id_t × Status} {t : NetThread} (hs : s.Tracked)
    (hx : s.net.signal = [x]) (hid : s.net.id? = some x.1) (ht : t.signal = [])
    (ht' : ∀ id, t.id? = some id → id = x.1) :
    { s with sigs := s.sigs ++ [x], net := t }.Tracked := by
  refine ⟨?_, ?_, ?_, hs.outgoing⟩
  · intro id
    refine Iff.trans ?_ (hs.contexts id)
    simp only [pending, ht, hx, List.append_nil, List.append_assoc]
  · intro id h
    apply hs.known
    rcases h with h | h | h | ⟨st, h⟩ | h | h
    · exact .connection h
    · exact .descriptor h
    · exact .context h
    · rcases List.mem_append.1 h with h | h
      · exact .signal ⟨st, h⟩
      · obtain rfl := List.mem_singleton.1 h
        exact .net hid
    · rw [ht' id h]
      exact .net hid
    · exact .handler h
  · intro id h
    simp only at h
    rw [h] at ht
    cases ht

/-- The signal of the handler joins the list, before that of the network thread. They are
of different connections, or say the same. -/
theorem Tracked.giveHandler {s : Connections} {id : conn_id_t} (hs : s.Tracked)
    (hh : s.handler = .disconnects (.add_sig id)) :
    { s with sigs := s.sigs ++ [(id, Status.DOWN)], handler := .disconnects .write }.Tracked := by
  have hswap (id' : conn_id_t) : statuses id' ([(id, .DOWN)] ++ s.net.signal) =
      statuses id' (s.net.signal ++ [(id, .DOWN)]) := by
    rw [statuses_append, statuses_append]
    cases hn : s.net with
    | created id'' =>
        obtain ⟨-, -, hne⟩ := hs.apart id'' hn
        rw [hh] at hne
        have hne : id ≠ id'' := fun h => hne (by rw [h]; rfl)
        rw [NetThread.signal, statuses_singleton, statuses_singleton]
        split
        · next h =>
            rw [if_neg (by rw [← h]; exact hne.symm), List.append_nil, List.nil_append]
        · rw [List.append_nil, List.nil_append]
    | disconnects d =>
        cases d with
        | add_sig id'' =>
            rw [NetThread.signal, Disconnect.signal, statuses_singleton, statuses_singleton]
            split
            · split <;> rfl
            · rw [List.append_nil, List.nil_append]
        | _ => exact (List.append_nil _).trans (List.nil_append _).symm
    | _ => exact (List.append_nil _).trans (List.nil_append _).symm
  refine ⟨?_, ?_, ?_, nofun⟩
  · intro id'
    refine Iff.trans ?_ (hs.contexts id')
    rw [mem_settle_iff, mem_settle_iff]
    have hsw := hswap id'
    rw [statuses_append, statuses_append] at hsw
    simp only [pending, hh, HandlerThread.inHand, HandlerThread.signal, Disconnect.signal,
      List.nil_append, List.append_nil, statuses_append, List.append_assoc, hsw]
  · intro id' h
    apply hs.known
    have hid : s.handler.id? = some id := by rw [hh]; rfl
    rcases h with h | h | h | ⟨st, h⟩ | h | h
    · exact .connection h
    · exact .descriptor h
    · exact .context h
    · rcases List.mem_append.1 h with h | h
      · exact .signal ⟨st, h⟩
      · cases List.mem_singleton.1 h
        exact .handler hid
    · exact .net h
    · cases h
  · intro id' hnet
    obtain ⟨hr, hl, hne⟩ := hs.apart id' hnet
    refine ⟨hr, ?_, nofun⟩
    intro st hmem
    rcases List.mem_append.1 hmem with hmem | hmem
    · exact hl st hmem
    · cases List.mem_singleton.1 hmem
      exact hne (by rw [hh]; rfl)

/-! ## Connections made and deleted -/

theorem deleteConnection_eq {s s' : Connections} {id : conn_id_t}
    (h : s.deleteConnection id = some s') : ∃ c, s.connections id = some c ∧
      s' = { s with
        fdToId := Function.update s.fdToId c.fd none
        connections := Function.update s.connections id none } := by
  unfold deleteConnection at h
  split at h
  · cases h
  · next c hc =>
      cases h
      exact ⟨c, hc, rfl⟩

theorem incoming_delete {s s' : Connections} {id id' : conn_id_t}
    (h : s.deleteConnection id = some s') : s'.Incoming id' ↔ id' ≠ id ∧ s.Incoming id' := by
  obtain ⟨c, -, rfl⟩ := deleteConnection_eq h
  rw [Incoming, Incoming]
  simp only
  by_cases hid : id' = id
  · subst hid
    rw [Function.update_self]
    exact ⟨fun ⟨_, h⟩ => (nomatch h), fun h => absurd rfl h.1⟩
  · rw [Function.update_of_ne hid]
    exact ⟨fun h => ⟨hid, h⟩, fun h => h.2⟩

theorem mentions_delete {s s' : Connections} {id id' : conn_id_t}
    (h : s.deleteConnection id = some s') (hm : s'.Mentions id') : s.Mentions id' := by
  obtain ⟨c, -, rfl⟩ := deleteConnection_eq h
  rcases hm with h | ⟨fd, h⟩ | h | h | h | h
  · refine .connection fun hnone => h ?_
    simp only
    by_cases hid : id' = id
    · subst hid
      exact Function.update_self ..
    · rw [Function.update_of_ne hid]
      exact hnone
  · refine .descriptor ⟨fd, ?_⟩
    simp only at h
    by_cases hf : fd = c.fd
    · subst hf
      rw [Function.update_self] at h
      cases h
    · rwa [Function.update_of_ne hf] at h
  · exact .context h
  · exact .signal h
  · exact .net h
  · exact .handler h

/-- A `DOWN` among signals that are all `DOWN` is the last word. -/
theorem getLast?_down {l : List Status} (h : ∀ st ∈ l, st = .DOWN) :
    (Status.DOWN :: l).getLast? = some .DOWN := by
  have hall : ∀ st ∈ Status.DOWN :: l, st = .DOWN := by
    intro st hst
    rcases List.mem_cons.1 hst with rfl | hst
    · rfl
    · exact h st hst
  rw [List.getLast?_eq_some_getLast (List.cons_ne_nil _ _),
    hall _ (List.getLast_mem (List.cons_ne_nil _ _))]

theorem statuses_signal {t : HandlerThread} {id : conn_id_t} :
    ∀ st ∈ statuses id t.signal, st = .DOWN := by
  intro st hst
  exact (HandlerThread.signal_down (mem_of_statuses hst)).1

/-- The network thread deletes a mapping and is to say so. -/
theorem Tracked.deleteNet {s s' : Connections} {id : conn_id_t} (hs : s.Tracked)
    (hn : s.net = .disconnects (.delete id)) (h : s.deleteConnection id = some s') :
    { s' with net := .disconnects (.add_sig id) }.Tracked := by
  have hdel := h
  have hknown (id' : conn_id_t) (hm : { s' with net := .disconnects (.add_sig id) }.Mentions id') :
      id' ≤ s.last := by
    rcases hm.net_or with h | h
    · cases h
      exact hs.known _ (.net (by rw [hn]; rfl))
    · exact hs.known _ (mentions_delete hdel h)
  obtain ⟨c, hc, rfl⟩ := deleteConnection_eq h
  refine ⟨?_, hknown, nofun, ?_⟩
  · intro id'
    refine Iff.trans ?_ (incoming_delete hdel).symm
    rw [← hs.contexts id', mem_settle_iff, mem_settle_iff]
    simp only [pending, hn, NetThread.signal, Disconnect.signal, statuses_append,
      statuses_singleton, List.append_assoc]
    by_cases heq : id = id'
    · subst heq
      rw [if_pos rfl, ← List.append_assoc (statuses id s.handler.inHand), List.singleton_append,
        List.getLast?_append_of_ne_nil _ (List.cons_ne_nil _ _), getLast?_down statuses_signal]
      exact ⟨nofun, fun h => absurd rfl h.1⟩
    · rw [if_neg heq, statuses_nil]
      exact ⟨fun h => ⟨Ne.symm heq, h⟩, fun h => h.2⟩
  · intro id' ho c' hc'
    simp only at hc'
    by_cases heq : id' = id
    · subst heq
      rw [Function.update_self] at hc'
      cases hc'
    · rw [Function.update_of_ne heq] at hc'
      exact hs.outgoing id' ho c' hc'

/-- The handler deletes a mapping and is to say so. -/
theorem Tracked.deleteHandler {s s' : Connections} {id : conn_id_t} (hs : s.Tracked)
    (hh : s.handler = .disconnects (.delete id)) (h : s.deleteConnection id = some s') :
    { s' with handler := .disconnects (.add_sig id) }.Tracked := by
  have hdel := h
  have hknown (id' : conn_id_t)
      (hm : { s' with handler := .disconnects (.add_sig id) }.Mentions id') : id' ≤ s.last := by
    rcases hm.handler_or with h | h
    · cases h
      exact hs.known _ (.handler (by rw [hh]; rfl))
    · exact hs.known _ (mentions_delete hdel h)
  obtain ⟨c, hc, rfl⟩ := deleteConnection_eq h
  refine ⟨?_, hknown, ?_, nofun⟩
  · intro id'
    refine Iff.trans ?_ (incoming_delete hdel).symm
    rw [← hs.contexts id', mem_settle_iff, mem_settle_iff]
    simp only [pending, hh, HandlerThread.signal, HandlerThread.inHand, Disconnect.signal,
      statuses_append, statuses_singleton, List.append_assoc]
    by_cases heq : id = id'
    · subst heq
      rw [if_pos rfl, ← List.append_assoc, ← List.append_assoc, List.getLast?_concat]
      exact ⟨nofun, fun h => absurd rfl h.1⟩
    · rw [if_neg heq, statuses_nil]
      exact ⟨fun h => ⟨Ne.symm heq, h⟩, fun h => h.2⟩
  · intro id' hnet
    obtain ⟨hr, hl, hne⟩ := hs.apart id' hnet
    refine ⟨hr, hl, fun h => hne ?_⟩
    rw [hh]
    exact h

/-- An outgoing connection that cannot be watched is forgotten without a signal. -/
theorem Tracked.forget {s s' : Connections} {id : conn_id_t} (hs : s.Tracked)
    (hh : s.handler = .failed id) (h : s.deleteConnection id = some s') :
    { s' with handler := .idle }.Tracked := by
  have hdel := h
  have hknown (id' : conn_id_t) (hm : { s' with handler := .idle }.Mentions id') : id' ≤ s.last := by
    rcases hm.handler_or with h | h
    · cases h
    · exact hs.known _ (mentions_delete hdel h)
  obtain ⟨c, hc, rfl⟩ := deleteConnection_eq h
  have hdir : c.dir = .OUTGOING := hs.outgoing id (.inr hh) c hc
  refine ⟨?_, hknown, ?_, nofun⟩
  · intro id'
    refine Iff.trans ?_ (incoming_delete hdel).symm
    have hpend : pending { s with
        fdToId := Function.update s.fdToId c.fd none
        connections := Function.update s.connections id none
        handler := .idle } = s.pending := by
      simp only [pending, hh, HandlerThread.signal, HandlerThread.inHand]
    rw [hpend, hs.contexts id']
    refine ⟨fun hin => ⟨?_, hin⟩, fun hin => hin.2⟩
    intro heq
    subst heq
    obtain ⟨fd, hfd⟩ := hin
    rw [hc] at hfd
    cases hfd
    cases hdir
  · intro id' hnet
    obtain ⟨hr, hl, -⟩ := hs.apart id' hnet
    exact ⟨hr, hl, nofun⟩

/-- The next id is nowhere. -/
theorem Tracked.fresh {s : Connections} (hs : s.Tracked) : ¬ s.Mentions (s.last + 1) :=
  fun h => Nat.not_succ_le_self _ (hs.known _ h)

theorem Tracked.connections_fresh {s : Connections} (hs : s.Tracked) :
    s.connections (s.last + 1) = none := by
  by_contra hne
  exact hs.fresh (.connection hne)

theorem statuses_fresh {s : Connections} (hs : s.Tracked) :
    statuses (s.last + 1) (s.handler.inHand ++ s.sigs) = [] ∧
      statuses (s.last + 1) s.handler.signal = [] := by
  constructor
  · rw [List.eq_nil_iff_forall_not_mem]
    intro st hst
    apply hs.fresh
    rcases List.mem_append.1 (mem_of_statuses hst) with h | h
    · refine .handler ?_
      cases hh : s.handler with
      | handles id st' =>
          rw [hh] at h
          cases List.mem_singleton.1 h
          rfl
      | _ =>
          rw [hh] at h
          cases h
    · exact .signal ⟨st, h⟩
  · rw [List.eq_nil_iff_forall_not_mem]
    intro st hst
    exact hs.fresh (.handler (HandlerThread.signal_down (mem_of_statuses hst)).2)

theorem mentions_create {s : Connections} {fd : Nat} {dir : Direction} {id : conn_id_t}
    (hm : (s.createConnection fd dir).Mentions id) : s.Mentions id ∨ id = s.last + 1 := by
  by_cases hid : id = s.last + 1
  · exact .inr hid
  · left
    rcases hm with h | ⟨fd', h⟩ | h | h | h | h
    · left
      simp only [createConnection] at h
      split at h
      · rwa [Function.update_of_ne hid] at h
      · exact h
    · right; left
      simp only [createConnection] at h
      split at h
      · by_cases hf : fd' = fd
        · subst hf
          rw [Function.update_self] at h
          cases h
          exact absurd rfl hid
        · rw [Function.update_of_ne hf] at h
          exact ⟨fd', h⟩
      · exact ⟨fd', h⟩
    · exact .context h
    · exact .signal h
    · exact .net h
    · exact .handler h

theorem incoming_create {s : Connections} (hs : s.Tracked) {fd : Nat} {dir : Direction}
    {id : conn_id_t} : (s.createConnection fd dir).Incoming id ↔
      (id = s.last + 1 ∧ dir = .INCOMING) ∨ (id ≠ s.last + 1 ∧ s.Incoming id) := by
  rw [Incoming, Incoming]
  simp only [createConnection, if_pos hs.connections_fresh]
  by_cases hid : id = s.last + 1
  · subst hid
    rw [Function.update_self]
    refine ⟨fun h => ?_, fun h => ?_⟩
    · obtain ⟨fd', h⟩ := h
      cases h
      exact .inl ⟨rfl, rfl⟩
    · rcases h with ⟨-, rfl⟩ | ⟨h, -⟩
      · exact ⟨fd, rfl⟩
      · exact absurd rfl h
  · rw [Function.update_of_ne hid]
    exact ⟨fun h => .inr ⟨hid, h⟩, fun h => h.elim (fun h => absurd h.1 hid) (·.2)⟩

/-- The network thread enters an incoming connection and is to say so. -/
theorem Tracked.createNet {s : Connections} {fd : Nat} (hs : s.Tracked)
    (hn : s.net = .accepted fd) :
    { s.createConnection fd .INCOMING with net := .created (s.last + 1) }.Tracked := by
  obtain ⟨hfresh, hfresh'⟩ := statuses_fresh hs
  refine ⟨?_, ?_, ?_, ?_⟩
  · intro id
    refine Iff.trans ?_ (@incoming_create s hs fd .INCOMING id).symm
    rw [mem_settle_iff]
    simp only [pending, createConnection, NetThread.signal, statuses_append, statuses_singleton]
    by_cases hid : s.last + 1 = id
    · subst hid
      rw [statuses_append] at hfresh
      rw [if_pos rfl, hfresh, hfresh']
      exact ⟨fun _ => .inl ⟨rfl, trivial⟩, fun _ => rfl⟩
    · have hc := hs.contexts id
      rw [mem_settle_iff] at hc
      simp only [pending, hn, NetThread.signal, List.append_nil, statuses_append] at hc
      rw [if_neg hid, List.append_nil, hc]
      exact ⟨fun h => .inr ⟨Ne.symm hid, h⟩, fun h => h.elim (fun h => absurd h.1.symm hid) (·.2)⟩
  · intro id hm
    show id ≤ s.last + 1
    rcases hm.net_or with h | h
    · cases h
      exact le_rfl
    · rcases mentions_create h with h | h
      · exact Nat.le_succ_of_le (hs.known id h)
      · exact Nat.le_of_eq h
  · intro id hnet
    cases hnet
    refine ⟨fun h => hs.fresh (.context h),
      fun st h => hs.fresh (.signal ⟨st, h⟩),
      fun h => hs.fresh (.handler h)⟩
  · intro id ho c hc
    by_cases hid : id = s.last + 1
    · subst hid
      refine absurd ?_ hs.fresh
      rcases ho with ho | ho
      · exact .handler (by rw [show s.handler = _ from ho]; rfl)
      · exact .handler (by rw [show s.handler = _ from ho]; rfl)
    · simp only [createConnection, if_pos hs.connections_fresh, Function.update_of_ne hid] at hc
      exact hs.outgoing id ho c hc

/-- The handler enters an outgoing connection. -/
theorem Tracked.createHandler {s : Connections} {fd : Nat} (hs : s.Tracked)
    (hh : s.handler = .connected fd) :
    { s.createConnection fd .OUTGOING with handler := .created (s.last + 1) }.Tracked := by
  refine ⟨?_, ?_, ?_, ?_⟩
  · intro id
    refine Iff.trans ?_ (@incoming_create s hs fd .OUTGOING id).symm
    have hpend : pending { s.createConnection fd .OUTGOING with
        handler := .created (s.last + 1) } = s.pending := by
      simp only [pending, hh, createConnection, HandlerThread.signal, HandlerThread.inHand]
    rw [hpend]
    refine Iff.trans (hs.contexts id) ⟨fun h => ?_, fun h => ?_⟩
    · refine .inr ⟨?_, h⟩
      intro hid
      subst hid
      obtain ⟨fd', h⟩ := h
      rw [hs.connections_fresh] at h
      cases h
    · rcases h with ⟨-, h⟩ | ⟨-, h⟩
      · cases h
      · exact h
  · intro id hm
    show id ≤ s.last + 1
    rcases hm.handler_or with h | h
    · cases h
      exact le_rfl
    · rcases mentions_create h with h | h
      · exact Nat.le_succ_of_le (hs.known id h)
      · exact Nat.le_of_eq h
  · intro id hnet
    obtain ⟨hr, hl, -⟩ := hs.apart id hnet
    refine ⟨hr, hl, fun h => ?_⟩
    cases h
    exact hs.fresh (.net (by rw [show s.net = _ from hnet]; rfl))
  · intro id ho c hc
    rcases ho with ho | ho
    · cases ho
      simp only [createConnection, if_pos hs.connections_fresh, Function.update_self] at hc
      cases hc
      rfl
    · cases ho

/-! ## Signals handled -/

theorem Tracked.handle {s : Connections} {id : conn_id_t} {st : Status} (hs : s.Tracked)
    (hh : s.handler = .handles id st) :
    { s with reqContexts := apply s.reqContexts (id, st), handler := .idle }.Tracked := by
  have hid : s.Mentions id := .handler (by rw [hh]; rfl)
  have hctx {id' : conn_id_t} (h : id' ∈ apply s.reqContexts (id, st)) :
      id' = id ∨ id' ∈ s.reqContexts := by
    cases st with
    | UP => exact Finset.mem_insert.1 h
    | DOWN => exact .inr (Finset.mem_of_mem_erase h)
  refine ⟨?_, ?_, ?_, nofun⟩
  · intro id'
    refine Iff.trans ?_ (hs.contexts id')
    simp only [pending, hh, HandlerThread.inHand, HandlerThread.signal, settle, List.nil_append,
      List.cons_append, List.foldl_cons]
  · intro id' hm
    rcases hm with h | h | h | h | h | h
    · exact hs.known _ (.connection h)
    · exact hs.known _ (.descriptor h)
    · rcases hctx h with rfl | h
      · exact hs.known _ hid
      · exact hs.known _ (.context h)
    · exact hs.known _ (.signal h)
    · exact hs.known _ (.net h)
    · cases h
  · intro id' hnet
    obtain ⟨hr, hl, hne⟩ := hs.apart id' hnet
    refine ⟨fun h => ?_, hl, nofun⟩
    rcases hctx h with rfl | h
    · exact hne (by rw [hh]; rfl)
    · exact hr h

/-- The handler takes the oldest signal. -/
theorem Tracked.take {s : Connections} {id : conn_id_t} {st : Status}
    {l : List (conn_id_t × Status)} (hs : s.Tracked) (hh : s.handler = .idle)
    (hl : s.sigs = (id, st) :: l) :
    { s with sigs := l, handler := .handles id st }.Tracked := by
  refine hs.of_same ?_ rfl ⟨rfl, rfl, rfl⟩ ?_ ?_ nofun
  · simp only [pending, hh, hl, HandlerThread.inHand, HandlerThread.signal, List.nil_append,
      List.singleton_append]
  · intro id' hm
    rcases hm with h | h | h | ⟨st', h⟩ | h | h
    · exact .connection h
    · exact .descriptor h
    · exact .context h
    · exact .signal ⟨st', by rw [hl]; exact List.mem_cons_of_mem _ h⟩
    · exact .net h
    · cases h
      exact .signal ⟨st, by rw [hl]; exact List.mem_cons_self⟩
  · intro id' hnet
    obtain ⟨hr, hsig, -⟩ := hs.apart id' hnet
    refine ⟨hr, fun st' h => hsig st' (by rw [hl]; exact List.mem_cons_of_mem _ h), fun h => ?_⟩
    cases h
    exact hsig st (by rw [hl]; exact List.mem_cons_self)

/-! ## Every step -/

/-- A signal given on a list that may be full. -/
theorem Tracked.room {max_size : Nat} {s : Connections} (hs : s.Tracked)
    (hspare : s.sigs.length = max_size → s.Spare) :
    { s with sigs := if s.sigs.length = max_size then s.sigs.drop 1 else s.sigs }.Tracked := by
  by_cases hfull : s.sigs.length = max_size
  · rw [if_pos hfull]
    exact hs.drop (hspare hfull)
  · rw [if_neg hfull]
    exact hs

theorem look_id? {id id' : conn_id_t} (h : (Disconnect.look id).id? = some id') : id' = id := by
  rw [Disconnect.id?] at h
  split at h
  · cases h
  · cases h
    rfl

/-- A step of `disconnect` in the network thread. -/
theorem Tracked.disconnectNet {max_size : Nat} {d : Disconnect} {d' : Option Disconnect}
    {s t : Connections} (hs : s.Tracked) (hnet : s.net = .disconnects d)
    (hspare : s.net.signal ≠ [] → s.sigs.length = max_size → s.Spare)
    (h : disconnect max_size d s = .goes (t, d')) :
    { t with net := d'.elim .idle .disconnects }.Tracked := by
  cases disconnect_cases h with
  | unknown id => exact hs.netFree (by simp only [hnet]; rfl) rfl
  | found hne hc =>
      refine hs.netStep (by simp only [hnet]; rfl) ?_ fun _ h => by cases h
      intro id' h
      cases h
      exact .connection (by rw [hc]; exact Option.some_ne_none _)
  | closed id fd =>
      refine (hs.setOpened _).netStep (by simp only [hnet]; rfl) ?_ fun _ h => by cases h
      intro id' h
      cases h
      exact .net (by simp only [hnet]; rfl)
  | deleted hdel => exact hs.deleteNet hnet hdel
  | signalled id =>
      have hroom := hs.room (hspare (by rw [hnet]; exact List.cons_ne_nil _ _))
      exact hroom.giveNet (x := (id, .DOWN)) (by simp only [hnet]; rfl) (by simp only [hnet]; rfl)
        rfl fun _ h => by cases h
  | written => exact hs.netFree (by simp only [hnet]; rfl) rfl

/-- A step of `disconnect` in the handler. -/
theorem Tracked.disconnectHandler {max_size : Nat} {d : Disconnect} {d' : Option Disconnect}
    {s t : Connections} (hs : s.Tracked) (hh : s.handler = .disconnects d)
    (hspare : s.handler.signal ≠ [] → s.sigs.length = max_size → s.Spare)
    (h : disconnect max_size d s = .goes (t, d')) :
    { t with handler := d'.elim .idle .disconnects }.Tracked := by
  have hapart {id : conn_id_t} (h : s.handler.id? = some id) : s.net ≠ .created id := by
    intro hnet
    exact (hs.apart id hnet).2.2 h
  cases disconnect_cases h with
  | unknown id => exact hs.handlerFree (by simp only [hh]; rfl) (by simp only [hh]; rfl) rfl
  | found hne hc =>
      refine hs.handlerStep (by simp only [hh]; rfl) (by simp only [hh]; rfl) ?_
        fun _ h => by rcases h with h | h <;> cases h
      intro id' h
      cases h
      refine ⟨.connection (by rw [hc]; exact Option.some_ne_none _), hapart ?_⟩
      rw [hh, HandlerThread.id?, Disconnect.id?, if_neg hne]
  | closed id fd =>
      have hid : s.handler.id? = some id := by rw [hh]; rfl
      refine (hs.setOpened _).handlerStep (by simp only [hh]; rfl) (by simp only [hh]; rfl) ?_
        fun _ h => by rcases h with h | h <;> cases h
      intro id' h
      cases h
      exact ⟨.handler hid, hapart hid⟩
  | deleted hdel => exact hs.deleteHandler hh hdel
  | signalled id =>
      exact (hs.room (hspare (by rw [hh]; exact List.cons_ne_nil _ _))).giveHandler hh
  | written => exact hs.handlerFree (by simp only [hh]; rfl) (by simp only [hh]; rfl) rfl

theorem stepNet_tracked {max_size : Nat} {e : NetStep} {s s' : Connections} (hs : s.Tracked)
    (hc : s.Kept max_size (.inl e)) (h : stepNet max_size e s = .goes s') : s'.Tracked := by
  unfold stepNet at h
  split at h
  · next fd hnet =>
      split at h
      · cases h
      · cases h
        exact (hs.setOpened _).netFree (by simp only [hnet]; rfl) rfl
  · next fd hnet =>
      cases h
      refine hs.netStep (by simp only [hnet]; rfl) ?_ fun _ h => by cases h
      intro id hid
      obtain rfl := look_id? hid
      cases hfd : s.fdToId fd with
      | none =>
          rw [hfd] at hid
          cases hid
      | some id => exact .descriptor ⟨fd, hfd⟩
  · next fd hnet =>
      cases h
      exact hs.createNet hnet
  · next id hnet =>
      split at h
      · cases h
      · cases h
        have hspare : s.sigs.length = max_size → s.Spare :=
          hc.2 (by rw [hnet]; exact List.cons_ne_nil _ _)
        exact (hs.room hspare).giveNet (x := (id, .UP)) (t := .signalled id) (by simp only [hnet]; rfl)
          (by simp only [hnet]; rfl) rfl (fun id' h => by cases h; rfl)
  · next refused id hnet =>
      cases h
      have hid : s.Mentions id := .net (by rw [hnet]; rfl)
      cases refused with
      | true =>
          refine hs.netStep (by simp only [hnet]; rfl) ?_ fun _ h => by cases h
          intro id' h
          rw [look_id? h]
          exact hid
      | false => exact hs.netFree (by simp only [hnet]; rfl) rfl
  · next d hnet =>
      split at h
      · next t ht =>
          cases h
          exact hs.disconnectNet hnet hc.2 ht
      · next t d' ht =>
          cases h
          exact hs.disconnectNet hnet hc.2 ht
      · cases h
      · cases h
  · cases h

theorem stepHandler_tracked {max_size : Nat} {e : HandlerStep} {s s' : Connections}
    (hs : s.Tracked) (hc : s.Kept max_size (.inr e)) (h : stepHandler max_size e s = .goes s') :
    s'.Tracked := by
  have hapart {id : conn_id_t} (h : s.handler.id? = some id) : s.net ≠ .created id := by
    intro hnet
    exact (hs.apart id hnet).2.2 h
  unfold stepHandler at h
  split at h
  · next hh =>
      split at h
      · cases h
      · next id st l hl =>
          cases h
          exact hs.take hh hl
  · next fd hh =>
      split at h
      · cases h
      · cases h
        exact (hs.setOpened _).handlerFree (by simp only [hh]; rfl) (by simp only [hh]; rfl)
          rfl
  · next id hh =>
      split at h
      · next hmem =>
          cases h
          refine hs.handlerStep (by simp only [hh]; rfl) (by simp only [hh]; rfl) ?_ fun _ h => by rcases h with h | h <;> cases h
          intro id' h
          obtain rfl := look_id? h
          exact ⟨.context hmem, fun hnet => (hs.apart _ hnet).1 hmem⟩
      · cases h
  · next id hh =>
      cases h
      exact hs.handle hh
  · next id hh =>
      cases h
      exact hs.handle hh
  · next fd hh =>
      split at h
      · cases h
        exact (hs.setOpened _).handlerFree (by simp only [hh]; rfl) (by simp only [hh]; rfl)
          rfl
      · cases h
        exact hs.handlerFree (by simp only [hh]; rfl) (by simp only [hh]; rfl) rfl
  · next fd hh =>
      cases h
      exact hs.createHandler hh
  · next refused id hh =>
      cases h
      have hid : s.handler.id? = some id := by rw [hh]; rfl
      cases refused with
      | true =>
          refine hs.handlerStep (by simp only [hh]; rfl) (by simp only [hh]; rfl) ?_ ?_
          · intro id' h
            cases h
            exact ⟨.handler hid, hapart hid⟩
          · intro id' h
            rcases h with h | h
            · cases h
            · cases h
              exact hs.outgoing id (.inl hh)
      | false => exact hs.handlerFree (by simp only [hh]; rfl) (by simp only [hh]; rfl) rfl
  · next id hh =>
      cases hdel : s.deleteConnection id with
      | none =>
          rw [hdel] at h
          cases h
      | some t =>
          rw [hdel] at h
          cases h
          exact hs.forget hh hdel
  · next d hh =>
      split at h
      · next t ht =>
          cases h
          exact hs.disconnectHandler hh hc.2 ht
      · next t d' ht =>
          cases h
          exact hs.disconnectHandler hh hc.2 ht
      · cases h
      · cases h
  · cases h

theorem init_tracked : init.Tracked := by
  refine ⟨?_, ?_, nofun, nofun⟩
  · intro id
    refine ⟨fun h => ?_, fun ⟨fd, h⟩ => nomatch h⟩
    exact absurd h (Finset.notMem_empty id)
  · intro id hm
    rcases hm with h | ⟨fd, h⟩ | h | ⟨st, h⟩ | h | h
    · exact absurd rfl h
    · cases h
    · exact absurd h (Finset.notMem_empty id)
    · cases h
    · cases h
    · cases h

theorem run_tracked {max_size : Nat} {s : Connections}
    (h : Run (step max_size) (fun e s => s.Kept max_size e) .init s) : s.Tracked := by
  refine h.invariant init_tracked (fun e s s' hs hc hgo => ?_) fun _ _ _ hc => step_ne_wild hc.1
  cases e with
  | inl e => exact stepNet_tracked hs hc hgo
  | inr e => exact stepHandler_tracked hs hc hgo

/-- When every signal is handled the contexts are those of the incoming connections. -/
theorem run_contexts (max_size : Nat) {s : Connections}
    (h : Run (step max_size) (fun e s => s.Kept max_size e) .init s) (hd : s.Drained) :
    ∀ id, id ∈ s.reqContexts ↔ s.Incoming id := by
  intro id
  obtain ⟨⟨hnet, hh⟩, hl⟩ := hd
  have hc := (run_tracked h).contexts id
  rw [pending, hnet, hh, hl] at hc
  exact hc

/-- A connection comes and its signal is handled. -/
theorem run_contexts_one : ∃ s : Connections, 1 ∈ s.reqContexts ∧
    ∀ id, id ∈ s.reqContexts ↔ s.Incoming id :=
  ⟨_, Finset.mem_insert_self 1 ∅, run_contexts 10
    (.step (a := .inr (.next false)) (.step (a := .inr .get_sig) (.step (a := .inl (.next false))
      (.step (a := .inl (.next false)) (.step (a := .inl (.next false))
        (.step (a := .inl (.accept 5)) .start ⟨⟨by decide, trivial⟩, trivial⟩ rfl)
        ⟨⟨by decide, trivial⟩, fun h => absurd rfl h⟩ rfl)
        ⟨⟨by decide, trivial⟩, fun _ h => absurd h (by decide)⟩ rfl)
        ⟨⟨by decide, trivial⟩, fun h => absurd rfl h⟩ rfl) ⟨⟨by decide, trivial⟩, trivial⟩ rfl)
      ⟨⟨by decide, trivial⟩, fun h => absurd rfl h⟩ rfl) ⟨⟨rfl, rfl⟩, rfl⟩⟩

/-- One connection more than the list holds is accepted before the handler looks. -/
def burst : List (NetStep ⊕ HandlerStep) :=
  ((List.range 11).flatMap fun fd => [.inl (.accept fd), .inl (.next false), .inl (.next false),
    .inl (.next false)]) ++ (List.replicate 10 [.inr .get_sig, .inr (.next false)]).flatten

/-- The signal of the first is lost, and it never gets a context. -/
theorem not_contexts_burst : ¬ ∀ s, Run (step 10) (fun _ _ => True) .init s → s.Drained →
    ∀ id, id ∈ s.reqContexts ↔ s.Incoming id := by
  intro h
  have hrun : ∃ s, exec (step 10) (fun _ _ => True) burst .init = some s ∧ s.Drained ∧
      1 ∉ s.reqContexts ∧ s.connections 1 = some ⟨0, .INCOMING⟩ :=
    ⟨_, rfl, ⟨⟨rfl, rfl⟩, rfl⟩, by decide, rfl⟩
  obtain ⟨s, hs, hd, hctx, hc⟩ := hrun
  exact hctx ((h s (Run.of_exec hs) hd 1).2 ⟨0, hc⟩)

end Connections

end Ztsdb.Net
