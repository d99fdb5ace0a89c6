import Mathlib

/-!
# Outcomes of a command that changes a state

A command of the source either returns, or throws after it may already have
changed what it works on, or does something the language gives no meaning to
(an access outside the storage it owns). `Outcome` keeps the three apart, and
keeps the state that an exception leaves behind: most of what is proved later
is about exactly that state.

`Holds` is the postcondition of an outcome, one predicate for each of the two
ends that have a state; a fault satisfies none.
-/

namespace Ztsdb.Lib

/-- The end of a command on a state `σ`: a value and the new state, an exception
and the state it leaves, or a fault. -/
inductive Outcome (ε σ α : Type) where
  | ok (a : α) (s : σ)
  | throw (e : ε) (s : σ)
  | fault

namespace Outcome

variable {ε σ τ α β : Type}

/-- Sequencing: an exception or a fault of the first command ends the whole. -/
def bind (o : Outcome ε σ α) (k : α → σ → Outcome ε σ β) : Outcome ε σ β :=
  match o with
  | .ok a s => k a s
  | .throw e s => .throw e s
  | .fault => .fault

/-- `try o catch h`: the handler sees the state the exception left. -/
def tryCatch (o : Outcome ε σ α) (h : ε → σ → Outcome ε σ α) : Outcome ε σ α :=
  match o with
  | .ok a s => .ok a s
  | .throw e s => h e s
  | .fault => .fault

/-- A command on a part of a larger state. -/
def mapState (f : σ → τ) (o : Outcome ε σ α) : Outcome ε τ α :=
  match o with
  | .ok a s => .ok a (f s)
  | .throw e s => .throw e (f s)
  | .fault => .fault

/-- Commands without a state, one after the other. -/
def collect : List (Outcome ε Unit α) → Outcome ε Unit (List α)
  | [] => .ok [] ()
  | o :: os => o.bind fun a _ => (collect os).bind fun as _ => .ok (a :: as) ()

/-- The state a command leaves, whether it returned or threw. -/
def state? : Outcome ε σ α → Option σ
  | .ok _ s => some s
  | .throw _ s => some s
  | .fault => none

/-- The postcondition `Q` on return, `R` on an exception. -/
def Holds (o : Outcome ε σ α) (Q : α → σ → Prop) (R : ε → σ → Prop) : Prop :=
  match o with
  | .ok a s => Q a s
  | .throw e s => R e s
  | .fault => False

@[simp] theorem bind_ok (a : α) (s : σ) (k : α → σ → Outcome ε σ β) :
    (Outcome.ok a s : Outcome ε σ α).bind k = k a s := rfl

@[simp] theorem bind_throw (e : ε) (s : σ) (k : α → σ → Outcome ε σ β) :
    (Outcome.throw e s : Outcome ε σ α).bind k = .throw e s := rfl

@[simp] theorem bind_fault (k : α → σ → Outcome ε σ β) :
    (Outcome.fault : Outcome ε σ α).bind k = .fault := rfl

@[simp] theorem tryCatch_ok (a : α) (s : σ) (h : ε → σ → Outcome ε σ α) :
    (Outcome.ok a s : Outcome ε σ α).tryCatch h = .ok a s := rfl

@[simp] theorem tryCatch_throw (e : ε) (s : σ) (h : ε → σ → Outcome ε σ α) :
    (Outcome.throw e s : Outcome ε σ α).tryCatch h = h e s := rfl

@[simp] theorem tryCatch_fault (h : ε → σ → Outcome ε σ α) :
    (Outcome.fault : Outcome ε σ α).tryCatch h = .fault := rfl

@[simp] theorem mapState_ok (f : σ → τ) (a : α) (s : σ) :
    (Outcome.ok a s : Outcome ε σ α).mapState f = .ok a (f s) := rfl

@[simp] theorem mapState_throw (f : σ → τ) (e : ε) (s : σ) :
    (Outcome.throw e s : Outcome ε σ α).mapState f = .throw e (f s) := rfl

@[simp] theorem mapState_fault (f : σ → τ) :
    (Outcome.fault : Outcome ε σ α).mapState f = .fault := rfl

@[simp] theorem holds_ok {Q : α → σ → Prop} {R : ε → σ → Prop} {a : α} {s : σ} :
    (Outcome.ok a s : Outcome ε σ α).Holds Q R ↔ Q a s := Iff.rfl

@[simp] theorem holds_throw {Q : α → σ → Prop} {R : ε → σ → Prop} {e : ε} {s : σ} :
    (Outcome.throw e s : Outcome ε σ α).Holds Q R ↔ R e s := Iff.rfl

@[simp] theorem holds_fault {Q : α → σ → Prop} {R : ε → σ → Prop} :
    (Outcome.fault : Outcome ε σ α).Holds Q R ↔ False := Iff.rfl

theorem Holds.imp {o : Outcome ε σ α} {Q Q' : α → σ → Prop} {R R' : ε → σ → Prop}
    (h : o.Holds Q R) (hQ : ∀ a s, Q a s → Q' a s) (hR : ∀ e s, R e s → R' e s) :
    o.Holds Q' R' := by
  cases o with
  | ok a s => exact hQ a s h
  | throw e s => exact hR e s h
  | fault => exact h

/-- Every state that `o` leaves, whether it returns or throws, satisfies `P`. -/
def Keeps (P : σ → Prop) (o : Outcome ε σ α) : Prop := ∀ s, o.state? = some s → P s

theorem keeps_ok {P : σ → Prop} {a : α} {s : σ} (h : P s) :
    (Outcome.ok a s : Outcome ε σ α).Keeps P := by
  intro t ht
  cases ht
  exact h

theorem keeps_throw {P : σ → Prop} {e : ε} {s : σ} (h : P s) :
    (Outcome.throw e s : Outcome ε σ α).Keeps P := by
  intro t ht
  cases ht
  exact h

theorem keeps_fault {P : σ → Prop} : (Outcome.fault : Outcome ε σ α).Keeps P := by
  intro t ht
  cases ht

theorem Keeps.bind {P : σ → Prop} {o : Outcome ε σ α} {k : α → σ → Outcome ε σ β}
    (h : o.Keeps P) (hk : ∀ a s, P s → (k a s).Keeps P) : (o.bind k).Keeps P := by
  cases o with
  | ok a s => exact hk a s (h s rfl)
  | throw e s => exact keeps_throw (h s rfl)
  | fault => exact keeps_fault

theorem Keeps.tryCatch {P : σ → Prop} {o : Outcome ε σ α} {k : ε → σ → Outcome ε σ α}
    (h : o.Keeps P) (hk : ∀ e s, P s → (k e s).Keeps P) : (o.tryCatch k).Keeps P := by
  cases o with
  | ok a s => exact keeps_ok (h s rfl)
  | throw e s => exact hk e s (h s rfl)
  | fault => exact keeps_fault

theorem Keeps.mapState {P : τ → Prop} {f : σ → τ} {o : Outcome ε σ α}
    (h : o.Keeps fun s => P (f s)) : (o.mapState f).Keeps P := by
  cases o with
  | ok a s => exact keeps_ok (h s rfl)
  | throw e s => exact keeps_throw (h s rfl)
  | fault => exact keeps_fault

/-- A last command that only returns a value changes no postcondition but that. -/
theorem holds_bind_return {o : Outcome ε σ α} {b : β} {Q : β → σ → Prop}
    {R : ε → σ → Prop} :
    (o.bind fun _ s => .ok b s).Holds Q R ↔ o.Holds (fun _ s => Q b s) R := by
  cases o <;> rfl

theorem bind_assoc {γ : Type} (o : Outcome ε σ α) (f : α → σ → Outcome ε σ β) (g : β → σ → Outcome ε σ γ) :
    (o.bind f).bind g = o.bind fun a s => (f a s).bind g := by
  cases o <;> rfl

/-- What a sequence returned came out of both of its commands. -/
theorem bind_eq_ok {o : Outcome ε σ α} {k : α → σ → Outcome ε σ β} {b : β} {s : σ} :
    o.bind k = .ok b s ↔ ∃ a t, o = .ok a t ∧ k a t = .ok b s := by
  cases o with
  | ok a t =>
      rw [bind_ok]
      constructor
      · intro h
        exact ⟨a, t, rfl, h⟩
      · rintro ⟨a', t', heq, h⟩
        cases heq
        exact h
  | throw e t =>
      rw [bind_throw]
      constructor
      · intro h; cases h
      · rintro ⟨a', t', heq, _⟩; cases heq
  | fault =>
      rw [bind_fault]
      constructor
      · intro h; cases h
      · rintro ⟨a', t', heq, _⟩; cases heq

/-- A value that was only mapped. -/
theorem mapState_eq_ok {f : σ → τ} {o : Outcome ε σ α} {a : α} {t : τ} :
    o.mapState f = .ok a t ↔ ∃ s, o = .ok a s ∧ f s = t := by
  cases o with
  | ok b s =>
      rw [mapState_ok]
      refine ⟨fun h => ?_, fun ⟨s', heq, h⟩ => ?_⟩
      · cases h
        exact ⟨s, rfl, rfl⟩
      · cases heq
        rw [h]
  | throw e s =>
      refine ⟨fun h => ?_, fun ⟨s', heq, h⟩ => ?_⟩
      · cases h
      · cases heq
  | fault =>
      refine ⟨fun h => ?_, fun ⟨s', heq, h⟩ => ?_⟩
      · cases h
      · cases heq

/-- What was collected came out of the commands, one for one. -/
theorem collect_eq_ok {os : List (Outcome ε Unit α)} {as : List α} {u : Unit}
    (h : collect os = .ok as u) : List.Forall₂ (fun o a => o = .ok a ()) os as := by
  induction os generalizing as with
  | nil =>
      cases h
      exact .nil
  | cons o os ih =>
      rw [collect, bind_eq_ok] at h
      obtain ⟨a, ⟨⟩, ha, h⟩ := h
      rw [bind_eq_ok] at h
      obtain ⟨as', ⟨⟩, has, h⟩ := h
      cases h
      exact .cons ha (ih has)

end Outcome

end Ztsdb.Lib
