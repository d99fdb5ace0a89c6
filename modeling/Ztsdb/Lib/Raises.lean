import Mathlib
import Ztsdb.Lib.Outcome

/-!
# What a command may throw

`Raises P` is about the exceptions of a command only: every one it throws is in `P`, whatever
state it leaves. It goes through sequences, parts of a state and commands collected.
-/

namespace Ztsdb.Lib

namespace Outcome

variable {ε σ τ α β : Type} {P : ε → Prop}

/-- Every exception of `o` is in `P`. -/
def Raises (P : ε → Prop) (o : Outcome ε σ α) : Prop := ∀ e s, o = .throw e s → P e

theorem raises_ok {a : α} {s : σ} : (Outcome.ok a s : Outcome ε σ α).Raises P := by
  intro e t h
  cases h

theorem raises_throw {e : ε} {s : σ} (he : P e) :
    (Outcome.throw e s : Outcome ε σ α).Raises P := by
  intro e' t h
  cases h
  exact he

theorem raises_fault : (Outcome.fault : Outcome ε σ α).Raises P := by
  intro e t h
  cases h

theorem Raises.bind {o : Outcome ε σ α} {k : α → σ → Outcome ε σ β} (h : o.Raises P)
    (hk : ∀ a s, (k a s).Raises P) : (o.bind k).Raises P := by
  cases o with
  | ok a s => exact hk a s
  | throw e s => exact raises_throw (h e s rfl)
  | fault => exact raises_fault

theorem Raises.mapState {f : σ → τ} {o : Outcome ε σ α} (h : o.Raises P) :
    (o.mapState f).Raises P := by
  cases o with
  | ok a s => exact raises_ok
  | throw e s => exact raises_throw (h e s rfl)
  | fault => exact raises_fault

theorem raises_collect {os : List (Outcome ε Unit α)} (h : ∀ o ∈ os, o.Raises P) :
    (collect os).Raises P := by
  induction os with
  | nil => exact raises_ok
  | cons o os ih =>
      refine (h o List.mem_cons_self).bind fun a _ => ?_
      exact (ih fun o ho => h o (List.mem_cons_of_mem _ ho)).bind fun as _ => raises_ok

end Outcome

end Ztsdb.Lib
