import Mathlib
import Ztsdb.Lang.Kont

/-!
# Frames and sentinels

The sentinels among the continuations are those of the frames on the stack, in their order,
with the first frame at the bottom. What a step pushes and pops keeps it so, except for two:
a loop pushes a frame without a sentinel, and a sourced file drops the sentinel of the call.
-/

namespace Ztsdb.Lang.Interp

open Ztsdb.Lib E

/-- The step evaluates no loop and sources no file. -/
def paired {V : Type} (σ : Store V) (s : State) : Bool :=
  match s.k with
  | [] => true
  | x :: _ =>
    match x.control with
    | some (.expr (etwhile _ _)) => false
    | some (.invoke b) =>
      match σ.invoke x.r b with
      | some (.source _) => false
      | _ => true
    | _ => true

/-! ## Continuations in a row -/

/-- The frames of the sentinels. -/
def ends (k : Kont) : List Nat := (k.filter fun n => n.atype.isEnd).map Node.r

/-- What may stand in front of a continuation: a sentinel has nothing to evaluate, and what
has nothing to evaluate and is no sentinel comes in front of what has. There are no loops. -/
structure Fits (x y : Node) : Prop where
  idle : x.atype.isEnd = true → x.control = none
  next : x.control = none → x.atype.isEnd = true ∨ y.control.isSome = true
  noCond : x.atype.isCond = false
  noWhile : x.atype.isWhile = false

/-- Continuations in a row, up to the last. -/
def Linked : Kont → Prop
  | [] => False
  | [x] => x.atype = {}
  | x :: y :: k => Fits x y ∧ Linked (y :: k)

/-- The continuations and the frames of a state. -/
structure Sound (s : State) : Prop where
  linked : Linked s.k
  ready : ∀ x y k, s.k = x :: y :: k → x.control.isSome = true
  fstack : s.fstack = ends s.k ++ [0]
  pops : ∀ p ∈ s.pops, p.popped = p.pushed

theorem ends_cons (x : Node) (k : Kont) :
    ends (x :: k) = if x.atype.isEnd then x.r :: ends k else ends k := by
  rw [ends, List.filter_cons]
  split <;> rfl

theorem ends_cons_of_not {x : Node} (h : x.atype.isEnd = false) (k : Kont) :
    ends (x :: k) = ends k := by
  rw [ends_cons, if_neg (by rw [h]; decide)]

@[simp] theorem ends_normal (e : E) (r : Nat) (k : Kont) : ends (.normal e r :: k) = ends k := rfl

@[simp] theorem ends_sentinel (r : Nat) (k : Kont) : ends (.sentinel r :: k) = r :: ends k := rfl

theorem Linked.ne_nil {k : Kont} (h : Linked k) : ∃ x k', k = x :: k' := by
  cases k with
  | nil => exact h.elim
  | cons x k' => exact ⟨x, k', rfl⟩

theorem Linked.tail {x : Node} {k : Kont} (h : Linked (x :: k)) (hk : k ≠ []) : Linked k := by
  cases k with
  | nil => exact absurd rfl hk
  | cons y k => exact h.2

/-- A continuation that evaluates, in front of any others. -/
theorem Linked.cons {x : Node} {k : Kont} (h : Linked k) (hc : x.control.isSome = true)
    (he : x.atype.isEnd = false) (hcond : x.atype.isCond = false)
    (hwhile : x.atype.isWhile = false) : Linked (x :: k) := by
  obtain ⟨y, k, rfl⟩ := h.ne_nil
  refine ⟨⟨fun h => ?_, fun h => ?_, hcond, hwhile⟩, h⟩
  · rw [he] at h
    cases h
  · rw [h] at hc
    cases hc

theorem Linked.normal {k : Kont} (h : Linked k) (e : E) (r : Nat) : Linked (.normal e r :: k) :=
  h.cons rfl rfl rfl rfl

theorem Linked.sentinel {k : Kont} (h : Linked k) (r : Nat) : Linked (.sentinel r :: k) := by
  obtain ⟨y, k, rfl⟩ := h.ne_nil
  exact ⟨⟨fun _ => rfl, fun _ => Or.inl rfl, rfl, rfl⟩, h⟩

/-- A continuation with something to evaluate stays one when its value is assigned. -/
theorem setVar_linked {x : Node} {k : Kont} (e : E) (g : Bool) (h : Linked (x :: k))
    (hc : x.control.isSome = true) (he : x.atype.isEnd = false) (hk : k ≠ []) :
    Linked (setVar e g (x :: k)) := by
  obtain ⟨y, k, rfl⟩ := List.exists_cons_of_ne_nil hk
  exact (h.tail hk).cons hc he h.1.noCond h.1.noWhile

/-- A row of continuations in front of others. -/
structure Built (k nk : Kont) : Prop where
  linked : Linked nk
  ends_eq : ends nk = ends k
  head : ∃ x y k', nk = x :: y :: k' ∧ x.control.isSome = true ∧ x.atype.isEnd = false

theorem Built.normal {k nk : Kont} (h : Built k nk) (e : E) (r : Nat) :
    Built k (.normal e r :: nk) := by
  obtain ⟨x, y, k', rfl, -⟩ := h.head
  exact ⟨h.linked.normal e r, h.ends_eq, _, _, _, rfl, rfl, rfl⟩

theorem Built.setVar {k nk : Kont} (h : Built k nk) (e : E) (g : Bool) :
    Built k (setVar e g nk) := by
  obtain ⟨x, y, k', rfl, hc, he⟩ := h.head
  refine ⟨setVar_linked e g h.linked hc he (by simp), ?_, _, _, _, rfl, hc, he⟩
  rw [← h.ends_eq, ends_cons_of_not he, Interp.setVar, ends_cons_of_not]
  exact he

theorem built_normal {k : Kont} (h : Linked k) (e : E) (r : Nat) : Built k (.normal e r :: k) := by
  obtain ⟨y, k', rfl⟩ := h.ne_nil
  exact ⟨h.normal e r, rfl, _, _, _, rfl, rfl, rfl⟩

theorem buildKont_built {k : Kont} (h : Linked k) (e : E) (r : Nat) :
    Built k (buildKont e r k) := by
  unfold buildKont
  split
  · exact ((built_normal h _ r).setVar _ _).normal _ r
  · exact ((built_normal h _ r).setVar _ _).normal _ r
  · exact built_normal h _ r

theorem buildElChain_built {k nk : Kont} {el : List E} {r : Nat} (h : Linked k)
    (hb : buildElChain el r k = some nk) : Built k nk := by
  induction el generalizing nk with
  | nil => cases hb
  | cons e el ih =>
      cases el with
      | nil =>
          cases hb
          exact buildKont_built h e r
      | cons e' el =>
          rw [buildElChain] at hb
          obtain ⟨nk', hnk', rfl⟩ := Option.map_eq_some_iff.mp hb
          have hbuilt := ih hnk'
          split
          · exact (hbuilt.setVar _ _).normal _ r
          · exact (hbuilt.setVar _ _).normal _ r
          · exact hbuilt.normal _ r

/-! ## Values -/

/-- Sentinels in front are consumed with their own frames. -/
theorem popEnds_sound {x : Node} {k : Kont} {s : State} (h : Linked k)
    (hstack : s.fstack = ends k ++ [0]) (hpops : ∀ p ∈ s.pops, p.popped = p.pushed) :
    ∃ x' y k' s', popEnds x k s = some (x', y, k', s') ∧ Linked (y :: k') ∧
      y.atype.isEnd = false ∧ s'.fstack = ends k' ++ [0] ∧
      (∀ p ∈ s'.pops, p.popped = p.pushed) := by
  induction k generalizing x s with
  | nil => exact h.elim
  | cons y k ih =>
      rw [popEnds]
      split
      · next hend =>
          rw [ends_cons, if_pos hend, List.cons_append] at hstack
          have hk : k ≠ [] := by
            rintro rfl
            rw [Linked] at h
            rw [h] at hend
            cases hend
          rw [hstack]
          refine ih (h.tail hk) rfl fun p hp => ?_
          rcases List.mem_append.mp hp with hp | hp
          · exact hpops p hp
          · obtain rfl := List.mem_singleton.mp hp
            rfl
      · next hend =>
          have hend := Bool.eq_false_iff.mpr hend
          rw [ends_cons_of_not hend] at hstack
          exact ⟨x, y, k, s, rfl, h, hend, hstack, hpops⟩

variable {V : Type} {σ : Store V}

/-- A step that leads to a sound state, if to any. -/
def Leads (n : Next State) : Prop := n ≠ .wild ∧ ∀ s', n = .goes s' → Sound s'

theorem leads_blocked : Leads .blocked :=
  ⟨(nomatch ·), fun _ => (nomatch ·)⟩

theorem leads_goes {s : State} (h : Sound s) : Leads (.goes s) := by
  refine ⟨(nomatch ·), fun s' heq => ?_⟩
  cases heq
  exact h

theorem goOn_leads {y : Node} {k : Kont} {v : V} {s : State} (h : Linked (y :: k))
    (hend : y.atype.isEnd = false) (hstack : s.fstack = ends k ++ [0])
    (hpops : ∀ p ∈ s.pops, p.popped = p.pushed) : Leads (goOn σ y k v s) := by
  have hloop : y.atype.isCond = false ∧ y.atype.isWhile = false := by
    cases k with
    | nil =>
        rw [Linked] at h
        rw [h]
        exact ⟨rfl, rfl⟩
    | cons z k => exact ⟨h.1.noCond, h.1.noWhile⟩
  rw [goOn, hloop.1, hloop.2]
  simp only [Bool.false_eq_true, if_false]
  split
  · next hc =>
      refine leads_goes ⟨h, fun x z k' heq => ?_, ?_, hpops⟩
      · obtain ⟨rfl, -⟩ := List.cons.inj heq
        exact hc
      · rw [ends_cons_of_not hend]
        exact hstack
  · next hc =>
      cases k with
      | nil =>
          refine leads_goes ⟨h, fun x z k' heq => ?_, ?_, hpops⟩
          · cases (List.cons.inj heq).2
          · simp only [if_true, ends_cons_of_not hend]
            exact hstack
      | cons z k =>
          simp only [reduceCtorEq, if_false]
          refine leads_goes ⟨h.2, fun x z' k' heq => ?_, hstack, hpops⟩
          obtain ⟨rfl, -⟩ := List.cons.inj heq
          have hidle := h.1.next (Option.not_isSome_iff_eq_none.mp hc)
          rw [hend] at hidle
          exact hidle.resolve_left Bool.false_ne_true

theorem applyKont_leads {x : Node} {k : Kont} {v : V} {s : State} (h : Linked k)
    (hstack : s.fstack = ends k ++ [0]) (hpops : ∀ p ∈ s.pops, p.popped = p.pushed) :
    Leads (applyKont σ x k v s) := by
  obtain ⟨x', y, k', s', hpop, hlinked, hend, hstack', hpops'⟩ := @popEnds_sound x k s h hstack hpops
  rw [applyKont, hpop]
  simp only
  split
  · exact leads_blocked
  · split
    · exact goOn_leads hlinked hend hstack' hpops'
    · exact leads_blocked

/-! ## Calls -/

/-- The arguments of a call, in front of what is sound. -/
theorem argKonts_built {k nk : Kont} {fenv r : Nat} (args : List ArgInfo) (h : Built k nk) :
    Built k (args.flatMap (argKonts fenv r) ++ nk) := by
  induction args with
  | nil => exact h
  | cons a args ih =>
      obtain ⟨x, y, k', heq, hc, -⟩ := ih.head
      have hlinked := ih.linked
      have hends := ih.ends_eq
      rw [List.flatMap_cons, List.append_assoc]
      generalize args.flatMap (argKonts fenv r) ++ nk = nk' at heq hlinked hends
      subst heq
      have harg : Linked (.arg fenv a :: x :: y :: k') :=
        ⟨⟨fun _ => rfl, fun _ => Or.inr hc, rfl, rfl⟩, hlinked⟩
      exact ⟨harg.normal _ _, hends, _, _, _, rfl, rfl, rfl⟩

theorem enter_leads {s : State} {body : Control} {args : List ArgInfo} {k : Kont} (r : Nat)
    (h : Linked k) (hstack : s.fstack = ends k ++ [0])
    (hpops : ∀ p ∈ s.pops, p.popped = p.pushed) :
    Leads (enter (s.push r) body s.frames.length (args.flatMap (argKonts s.frames.length r)) k) := by
  have hbuilt : Built (.sentinel s.frames.length :: k)
      (args.flatMap (argKonts s.frames.length r) ++
        ⟨none, some body, s.frames.length, {}⟩ :: .sentinel s.frames.length :: k) := by
    refine argKonts_built args ⟨(h.sentinel _).cons rfl rfl rfl rfl, rfl, _, _, _, rfl, rfl, rfl⟩
  obtain ⟨x, y, k', heq, hc, -⟩ := hbuilt.head
  refine leads_goes ⟨hbuilt.linked, fun x' y' k'' heq' => ?_, ?_, hpops⟩
  · obtain ⟨rfl, -⟩ := List.cons.inj (heq.symm.trans heq')
    exact hc
  · show s.frames.length :: s.fstack = _
    rw [hbuilt.ends_eq, hstack]
    rfl

/-! ## Steps -/

theorem built_leads {s : State} {k nk : Kont} (h : Built k nk) (hstack : s.fstack = ends k ++ [0])
    (hpops : ∀ p ∈ s.pops, p.popped = p.pushed) : Leads (.goes { s with k := nk }) := by
  obtain ⟨x, y, k', heq, hc, -⟩ := h.head
  refine leads_goes ⟨h.linked, fun x' y' k'' heq' => ?_, ?_, hpops⟩
  · obtain ⟨rfl, -⟩ := List.cons.inj (heq.symm.trans heq')
    exact hc
  · rw [h.ends_eq]
    exact hstack

theorem stepExpr_leads {e : E} {x : Node} {k : Kont} {s : State} (h : Linked k)
    (hstack : s.fstack = ends k ++ [0]) (hpops : ∀ p ∈ s.pops, p.popped = p.pushed)
    (hloop : ∀ e1 e2, e ≠ etwhile e1 e2) : Leads (stepExpr σ e x k s) := by
  unfold stepExpr
  split
  · split
    · exact leads_blocked
    · exact applyKont_leads h hstack hpops
  · split
    · exact built_leads (buildKont_built h _ _) hstack hpops
    · exact built_leads (buildKont_built h _ _) hstack hpops
    · split
      · exact leads_blocked
      · next hb => exact built_leads (buildElChain_built h hb) hstack hpops
    · split
      · exact leads_blocked
      · next hb => exact built_leads (buildElChain_built h hb) hstack hpops
    · split
      · exact leads_blocked
      · exact applyKont_leads h hstack hpops
    · split
      · exact leads_blocked
      · exact built_leads (built_normal h _ _) hstack hpops
      · exact built_leads (built_normal h _ _) hstack hpops
    · split
      · exact leads_blocked
      · simp only [applyProc]
        split
        · exact leads_blocked
        · split
          · exact leads_blocked
          · exact enter_leads _ h hstack hpops
      · simp only [applyBuiltin]
        split
        · exact leads_blocked
        · exact enter_leads _ h hstack hpops
    · exact absurd rfl (hloop _ _)
    · exact leads_blocked

theorem invoke_leads {b : Builtin} {x : Node} {k : Kont} {s : State} (h : Linked k)
    (hstack : s.fstack = ends k ++ [0]) (hpops : ∀ p ∈ s.pops, p.popped = p.pushed)
    (hsource : ∀ el, σ.invoke x.r b ≠ some (.source el)) : Leads (invoke σ b x k s) := by
  unfold invoke
  split
  · exact leads_blocked
  · exact applyKont_leads h hstack hpops
  · refine applyKont_leads ((h.sentinel _).normal _ _) ?_ hpops
    show s.frames.length :: s.fstack = _
    rw [ends_normal, ends_sentinel, hstack]
    rfl
  · exact applyKont_leads (h.normal _ _) hstack hpops
  · next el heq => exact absurd heq (hsource el)

theorem step_leads {s : State} (h : Sound s) (hpaired : paired σ s = true) : Leads (step σ s) := by
  obtain ⟨x, k, hk⟩ := h.linked.ne_nil
  rw [paired, hk] at hpaired
  rw [step, hk]
  cases k with
  | nil => exact leads_blocked
  | cons y k =>
      have hlinked := h.linked
      have hready := h.ready x y k hk
      have hstack := h.fstack
      rw [hk] at hlinked hstack
      have hend : x.atype.isEnd = false := by
        by_contra hend
        have hnone := hlinked.1.idle (by simpa using hend)
        rw [hnone] at hready
        cases hready
      rw [ends_cons_of_not hend] at hstack
      simp only at hpaired ⊢
      split
      · next hnone =>
          rw [hnone] at hready
          cases hready
      · next e hc =>
          refine stepExpr_leads hlinked.2 hstack h.pops fun e1 e2 he => ?_
          rw [hc, he] at hpaired
          cases hpaired
      · exact built_leads (built_normal hlinked.2 _ _) hstack h.pops
      · next b hc =>
          refine invoke_leads hlinked.2 hstack h.pops fun el hel => ?_
          rw [hc] at hpaired
          simp only [hel] at hpaired
          cases hpaired

/-! ## Runs -/

theorem start_sound (e : E) (depth : Nat) : Sound (start e depth) := by
  have hlast : Linked [⟨none, none, 0, {}⟩] := rfl
  refine ⟨hlast.normal e 0, fun x y k heq => ?_, rfl, ?_⟩
  · cases heq
    rfl
  · intro p hp
    cases hp

/-- In every run in which no loop is evaluated and no file sourced, each sentinel consumed
pops the frame pushed with it, and with the last value only the first frame is left. -/
theorem run_frames {V : Type} (e : E) (depth : Nat) {s : State}
    (hr : Run (step (V := V)) (fun σ s => paired σ s = true) (start e depth) s) :
    (∀ p ∈ s.pops, p.popped = p.pushed) ∧ (s.k.tail = [] → s.fstack = [0]) := by
  have hsound : Sound s := by
    refine hr.invariant (start_sound e depth) ?_ ?_
    · exact fun σ s s' h hpaired hgo => (step_leads h hpaired).2 s' hgo
    · exact fun σ s h hpaired => (step_leads h hpaired).1
  refine ⟨hsound.pops, fun hlast => ?_⟩
  obtain ⟨x, k, hk⟩ := hsound.linked.ne_nil
  have hlinked := hsound.linked
  have hstack := hsound.fstack
  rw [hk] at hlast hlinked hstack
  obtain rfl : k = [] := hlast
  rw [Linked] at hlinked
  rw [hstack, ends_cons_of_not (by rw [hlinked])]
  rfl

/-- Only constants and functions have values. -/
def constants : Store Bool where
  null := false
  isTrue := some
  evalAtom := fun
    | _, etnull => some false
    | _, literal (.bool data) => some data
    | _, _ => none
  evalProc := fun
    | _, etfunction formlist body => some (.closure formlist body)
    | _, _ => none
  sendReq _ _ _ := none
  invoke _ _ := none
  add _ _ _ := true
  expressions := 5000

/-- A call as the last expression of a function: two sentinels are consumed at once. -/
theorem run_frames_two : (∀ p ∈ [Pop.mk 2 2, ⟨1, 1⟩], p.popped = p.pushed) ∧
    (([⟨none, none, 0, {}⟩] : Kont).tail = [] → [0] = [0]) := by
  refine @run_frames Bool (etfuncall (etfunction []
    (etfuncall (etfunction [] (literal (.bool true))) [])) []) 0 ⟨[⟨none, none, 0, {}⟩], [0],
    [⟨none, 0, none, none⟩, ⟨some 0, 1, none, none⟩, ⟨some 1, 2, none, none⟩], [⟨2, 2⟩, ⟨1, 1⟩]⟩ ?_
  exact @Run.of_exec _ _ _ _ _ _ _ [constants, constants, constants] rfl

/-- With a loop as the body of a function, the sentinel of the call pops the frame of the loop,
and that of the function is left on the stack. -/
theorem not_run_frames : ∃ s, Run (step (V := Bool)) (fun _ _ => True)
    (start (etfuncall (etfunction [] (etwhile (literal (.bool false)) etnull)) []) 0) s ∧
      s.k.tail = [] ∧ s.pops = [⟨1, 2⟩] ∧ s.fstack = [1, 0] := by
  refine ⟨⟨[⟨none, none, 0, {}⟩], [1, 0], [⟨none, 0, none, none⟩, ⟨some 0, 1, none, none⟩,
    ⟨some 1, 2, none, none⟩], [⟨1, 2⟩]⟩, ?_, rfl, rfl, rfl⟩
  exact @Run.of_exec _ _ _ _ _ _ _ [constants, constants, constants, constants] rfl

end Ztsdb.Lang.Interp
